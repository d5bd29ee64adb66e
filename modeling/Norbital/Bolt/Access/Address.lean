import Norbital.Lib.Numerals
import Norbital.Lib.Prefixes
import Norbital.Std.Decimal

/-!
# Client addresses

Whom a rate limit counts by address (`bolt/src/engine/access/rate.ts`): the address
behind trusted proxies, and its bucket.  `Number(text)`, where it is a whole number,
is the parameter `number`.
-/

namespace Norbital.Bolt

open Norbital.Lib (trim)
open Prefixes (value Agree)
open Numerals (joined)

/-- `/^(0|[1-9]\d{0,2})$/`. -/
def isByte : List Char → Bool
  | [] => false
  | c :: cs => (c == '0' && cs.isEmpty) || (c.isDigit && c != '0' && cs.length ≤ 2 && cs.all Char.isDigit)

/-- Dotted-quad IPv4: its four bytes. -/
def ipv4 (a : List Char) : Option (List ℕ) :=
  let parts := a.splitOn '.'
  if parts.length ≠ 4 || !parts.all isByte then none
  else
    let bytes := parts.map (Nat.ofDigitChars 10 · 0)
    if bytes.all (· < 256) then some bytes else none

/-- `text.split('::')`. -/
def splitPairs : List Char → List (List Char)
  | ':' :: ':' :: rest => [] :: splitPairs rest
  | c :: rest => (splitPairs rest).modifyHead (c :: ·)
  | [] => [[]]

def isHexDigit (c : Char) : Bool := c.isDigit || ('a' ≤ c && c ≤ 'f') || ('A' ≤ c && c ≤ 'F')

/-- `/^[0-9a-f]{1,4}$/i`. -/
def isGroup (g : List Char) : Bool := !g.isEmpty && g.length ≤ 4 && g.all isHexDigit

def hexDigit (c : Char) : ℕ :=
  if c.isDigit then c.toNat - '0'.toNat else if 'a' ≤ c then c.toNat - 'a'.toNat + 10 else c.toNat - 'A'.toNat + 10

/-- `parseInt(g, 16)`. -/
def parseHex (g : List Char) : ℕ := g.foldl (fun n c => 16 * n + hexDigit c) 0

/-- The words of a dotted quad. -/
def quadWords : List ℕ → List ℕ
  | [b₀, b₁, b₂, b₃] => [b₀ <<< 8 ||| b₁, b₂ <<< 8 ||| b₃]
  | _ => []

/-- `words`, over the groups of a part: a quad may stand last in the last part. -/
def groupWords (last : Bool) : List (List Char) → Option (List ℕ)
  | [] => some []
  | g :: groups =>
    match if last && groups.isEmpty && g.contains '.' then ipv4 g else none with
    | some quad => (groupWords last groups).map (quadWords quad ++ ·)
    | none => if isGroup g then (groupWords last groups).map (parseHex g :: ·) else none

def partWords (part : List Char) (last : Bool) : Option (List ℕ) :=
  if part.isEmpty then some [] else groupWords last (part.splitOn ':')

/-- IPv6 text, with `::` and a trailing dotted quad: its eight words. -/
def ipv6 (a : List Char) : Option (List ℕ) :=
  match splitPairs a with
  | [whole] => (partWords whole true).bind fun head => if head.length = 8 then some head else none
  | [left, right] =>
    (partWords left false).bind fun head => (partWords right true).bind fun tail =>
      if head.length + tail.length < 8 then some (head ++ List.replicate (8 - head.length - tail.length) 0 ++ tail) else none
  | _ => none

/-- The first six words of IPv4 addresses in their mapped form. -/
def mappedPrefix : List ℕ := [0, 0, 0, 0, 0, 0xffff]

/-- Any address as IPv6 words; IPv4 as its mapped form. -/
def ipWords (a : List Char) : Option (List ℕ) :=
  match ipv4 a with
  | none => ipv6 a
  | some quad => some (mappedPrefix ++ quadWords quad)

structure Subnet where
  words : List ℕ
  bits : ℕ

section Trusted

variable (number : List Char → Option ℤ)

/-- One entry of the trusted list; a malformed one trusts nothing. -/
def subnetOf (cidr : List Char) : Option Subnet :=
  match cidr.splitOn '/' with
  | [] => none
  | net :: rest =>
    let max : ℤ := if (ipv4 net).isNone then 128 else 32
    match ipWords net, rest.head?.elim (some max) number with
    | some words, some n => if n < 0 ∨ n > max then none else some ⟨words, (n + 128 - max).toNat⟩
    | _, _ => none

/-- Every word agrees with the subnet's under its mask. -/
def covers (words : List ℕ) (s : Subnet) : Bool :=
  words.zipIdx.all fun (w, i) =>
    let left := min 16 (s.bits - i * 16)
    let mask := (0xffff <<< (16 - left)) &&& 0xffff
    w &&& mask == s.words.getD i 0 &&& mask

def isTrusted (trusted : List (List Char)) (a : List Char) : Bool :=
  match ipWords a with
  | none => false
  | some words => (trusted.filterMap (subnetOf number)).any (covers words)

/-- The entries of an X-Forwarded-For header. -/
def hopsOf (forwardedFor : Option (List Char)) : List (List Char) :=
  (((forwardedFor.getD []).splitOn ',').map trim).filter (!·.isEmpty)

/-- The loop of `clientAddress`, over the hops from the last. -/
def stepLeft (isTrusted : List Char → Bool) (address : List Char) : List (List Char) → List Char
  | [] => address
  | hop :: hops => if isTrusted address then stepLeft isTrusted hop hops else address

def clientAddress (peer : List Char) (forwardedFor : Option (List Char)) (trusted : List (List Char)) : List Char :=
  stepLeft (isTrusted number trusted) peer (hopsOf forwardedFor).reverse

end Trusted

/-- `/^::ffff:(\d+\.\d+\.\d+\.\d+)$/i`: the quad of a mapped address. -/
def mappedQuad : List Char → Option (List Char)
  | ':' :: ':' :: f₁ :: f₂ :: f₃ :: f₄ :: ':' :: quad =>
    let parts := quad.splitOn '.'
    if [f₁, f₂, f₃, f₄].all (fun c => c == 'f' || c == 'F') && parts.length == 4 &&
      parts.all fun p => !p.isEmpty && p.all Char.isDigit then some quad else none
  | _ => none

/-- An IPv4 address counts as itself, an IPv6 address by its /64. -/
def addressBucket (address : List Char) : List Char :=
  match mappedQuad address with
  | some quad => quad
  | none =>
    match ipv6 address with
    | none => address
    | some words => joined ':' 16 (words.take 4) ++ "::/64".toList

theorem isDigit_of_isByte {p : List Char} (h : isByte p) : p ≠ [] ∧ ∀ c ∈ p, c.isDigit := by
  cases p with
  | nil => cases h
  | cons c cs =>
    refine ⟨List.cons_ne_nil _ _, ?_⟩
    simp only [isByte, Bool.or_eq_true, Bool.and_eq_true, beq_iff_eq, List.isEmpty_iff, List.all_eq_true] at h
    rintro d hd
    rcases h with ⟨rfl, rfl⟩ | ⟨⟨⟨hc, -⟩, -⟩, hcs⟩
    · rw [List.mem_singleton] at hd
      subst hd
      decide
    · rcases List.mem_cons.1 hd with rfl | hd
      · exact hc
      · exact hcs d hd

/-- A byte's text is the numeral of its value. -/
theorem toDigits_of_isByte {p : List Char} (h : isByte p) : Nat.toDigits 10 (Nat.ofDigitChars 10 p 0) = p := by
  have hdigits := (isDigit_of_isByte h).2
  cases p with
  | nil => cases h
  | cons c cs =>
    simp only [isByte, Bool.or_eq_true, Bool.and_eq_true, beq_iff_eq, List.isEmpty_iff, bne_iff_ne] at h
    rcases h with ⟨rfl, rfl⟩ | ⟨⟨⟨-, hc⟩, -⟩, -⟩
    · decide
    · exact (Numerals.toDigits_ofDigitChars hc hdigits).2

theorem ipv4_eq_some {a : List Char} {quad : List ℕ} (h : ipv4 a = some quad) :
    a = joined '.' 10 quad ∧ quad.length = 4 ∧ ∀ b ∈ quad, b < 256 := by
  rw [ipv4] at h
  simp only [Bool.or_eq_true, decide_eq_true_eq, Bool.not_eq_true'] at h
  split_ifs at h with hparts hbytes
  obtain rfl := Option.some.inj h
  rw [not_or, not_not, Bool.not_eq_false] at hparts
  obtain ⟨hlength, hall⟩ := hparts
  refine ⟨?_, by rw [List.length_map, hlength], ?_⟩
  · rw [joined, List.map_map]
    have hmap : (a.splitOn '.').map (Nat.toDigits 10 ∘ (Nat.ofDigitChars 10 · 0)) = a.splitOn '.' := by
      conv_rhs => rw [← List.map_id (a.splitOn '.')]
      exact List.map_congr_left fun p hp => toDigits_of_isByte (List.all_eq_true.1 hall p hp)
    rw [hmap, List.intercalate_splitOn]
  · intro b hb
    exact of_decide_eq_true (List.all_eq_true.1 hbytes b hb)

/-- A quad's words. -/
theorem quadWords_eq {b₀ b₁ b₂ b₃ : ℕ} (h₁ : b₁ < 256) (h₃ : b₃ < 256) :
    quadWords [b₀, b₁, b₂, b₃] = [256 * b₀ + b₁, 256 * b₂ + b₃] := by
  rw [quadWords, ← Nat.shiftLeft_add_eq_or_of_lt (i := 8) h₁, ← Nat.shiftLeft_add_eq_or_of_lt (i := 8) h₃, Nat.shiftLeft_eq,
    Nat.shiftLeft_eq, Nat.mul_comm b₀, Nat.mul_comm b₂]

theorem exists_quadWords {quad : List ℕ} (hlength : quad.length = 4) (hbytes : ∀ b ∈ quad, b < 256) :
    ∃ hi lo, quadWords quad = [hi, lo] ∧ hi < 65536 ∧ lo < 65536 ∧ [hi / 256, hi % 256, lo / 256, lo % 256] = quad := by
  match quad, hlength with
  | [b₀, b₁, b₂, b₃], _ =>
    have h₀ := hbytes b₀ (by simp)
    have h₁ := hbytes b₁ (by simp)
    have h₂ := hbytes b₂ (by simp)
    have h₃ := hbytes b₃ (by simp)
    refine ⟨_, _, quadWords_eq h₁ h₃, by omega, by omega, ?_⟩
    simp only [List.cons.injEq, and_true]
    omega

theorem hexDigit_lt {c : Char} (h : isHexDigit c) : hexDigit c < 16 := by
  simp only [isHexDigit, Bool.or_eq_true, Bool.and_eq_true, decide_eq_true_eq] at h
  rw [hexDigit]
  split_ifs with hdigit hlower
  · have := (Char.isDigit_iff_toNat.1 hdigit).2
    have hnine : '9'.toNat = 57 := rfl
    have hzero : '0'.toNat = 48 := rfl
    omega
  · rcases h with (h | ⟨-, h⟩) | ⟨-, h⟩
    · exact absurd h hdigit
    · have : c.toNat ≤ 102 := h
      have ha : 'a'.toNat = 97 := rfl
      omega
    · have hlow : 97 ≤ c.toNat := hlower
      have hhigh : c.toNat ≤ 70 := h
      omega
  · rcases h with (h | ⟨h, -⟩) | ⟨-, h⟩
    · exact absurd h hdigit
    · exact absurd h hlower
    · have : c.toNat ≤ 70 := h
      have ha : 'A'.toNat = 65 := rfl
      omega

theorem foldl_hexDigit_lt {g : List Char} (h : ∀ c ∈ g, isHexDigit c) (n : ℕ) :
    g.foldl (fun n c => 16 * n + hexDigit c) n < (n + 1) * 16 ^ g.length := by
  induction g generalizing n with
  | nil => simp
  | cons c g ih =>
    have hc := hexDigit_lt (h c List.mem_cons_self)
    have hrest := ih (fun d hd => h d (List.mem_cons_of_mem _ hd)) (16 * n + hexDigit c)
    calc _ < (16 * n + hexDigit c + 1) * 16 ^ g.length := hrest
      _ ≤ (16 * (n + 1)) * 16 ^ g.length := Nat.mul_le_mul_right _ (by omega)
      _ = (n + 1) * 16 ^ (c :: g).length := by
        rw [List.length_cons]
        ring

theorem parseHex_lt {g : List Char} (h : isGroup g) : parseHex g < 65536 := by
  simp only [isGroup, Bool.and_eq_true, decide_eq_true_eq, List.all_eq_true] at h
  have hfold := foldl_hexDigit_lt h.2 0
  have hpow : 16 ^ g.length ≤ 16 ^ 4 := Nat.pow_le_pow_right (by decide) h.1.2
  rw [parseHex]
  omega

theorem groupWords_lt {last : Bool} {groups : List (List Char)} {ws : List ℕ} (h : groupWords last groups = some ws) :
    ∀ w ∈ ws, w < 65536 := by
  induction groups generalizing ws with
  | nil =>
    obtain rfl := Option.some.inj h
    simp
  | cons g groups ih =>
    rw [groupWords] at h
    split at h
    · rename_i quad hquad
      obtain ⟨ws', hws', rfl⟩ := Option.map_eq_some_iff.1 h
      split_ifs at hquad with hlast
      obtain ⟨-, hlength, hbytes⟩ := ipv4_eq_some hquad
      obtain ⟨hi, lo, hwords, hhi, hlo, -⟩ := exists_quadWords hlength hbytes
      intro w hw
      rw [hwords] at hw
      rcases List.mem_append.1 hw with hw | hw
      · simp only [List.mem_cons, List.not_mem_nil, or_false] at hw
        rcases hw with rfl | rfl
        · exact hhi
        · exact hlo
      · exact ih hws' w hw
    · split_ifs at h with hgroup
      obtain ⟨ws', hws', rfl⟩ := Option.map_eq_some_iff.1 h
      intro w hw
      rcases List.mem_cons.1 hw with rfl | hw
      · exact parseHex_lt hgroup
      · exact ih hws' w hw

theorem partWords_lt {part : List Char} {last : Bool} {ws : List ℕ} (h : partWords part last = some ws) :
    ∀ w ∈ ws, w < 65536 := by
  rw [partWords] at h
  split_ifs at h
  · obtain rfl := Option.some.inj h
    simp
  · exact groupWords_lt h

theorem ipv6_eq_some {a : List Char} {ws : List ℕ} (h : ipv6 a = some ws) : ws.length = 8 ∧ ∀ w ∈ ws, w < 65536 := by
  rw [ipv6] at h
  split at h
  · obtain ⟨head, hhead, h⟩ := Option.bind_eq_some_iff.1 h
    split_ifs at h with hlength
    obtain rfl := Option.some.inj h
    exact ⟨hlength, partWords_lt hhead⟩
  · obtain ⟨head, hhead, h⟩ := Option.bind_eq_some_iff.1 h
    obtain ⟨tail, htail, h⟩ := Option.bind_eq_some_iff.1 h
    split_ifs at h with hlength
    obtain rfl := Option.some.inj h
    constructor
    · rw [List.length_append, List.length_append, List.length_replicate]
      omega
    · intro w hw
      rw [List.mem_append, List.mem_append, List.mem_replicate] at hw
      rcases hw with (hw | ⟨-, rfl⟩) | hw
      · exact partWords_lt hhead w hw
      · decide
      · exact partWords_lt htail w hw
  · cases h

/-- An address is read as eight words of sixteen bits. -/
theorem ipWords_eq_some {a : List Char} {ws : List ℕ} (h : ipWords a = some ws) : ws.length = 8 ∧ ∀ w ∈ ws, w < 65536 := by
  rw [ipWords] at h
  split at h
  · exact ipv6_eq_some h
  · rename_i quad hquad
    obtain ⟨-, hlength, hbytes⟩ := ipv4_eq_some hquad
    obtain ⟨hi, lo, hwords, hhi, hlo, -⟩ := exists_quadWords hlength hbytes
    obtain rfl := Option.some.inj h
    rw [hwords]
    refine ⟨rfl, ?_⟩
    intro w hw
    simp only [mappedPrefix, List.cons_append, List.nil_append, List.mem_cons, List.not_mem_nil, or_false] at hw
    omega

/-- The address has the subnet's first bits. -/
def Subnet.Has (s : Subnet) (words : List ℕ) : Prop := value words / 2 ^ (128 - s.bits) = value s.words / 2 ^ (128 - s.bits)

/-- An address in one of the trusted subnets. -/
def InTrusted (number : List Char → Option ℤ) (trusted : List (List Char)) (a : List Char) : Prop :=
  ∃ words, ipWords a = some words ∧ ∃ cidr ∈ trusted, ∃ s, subnetOf number cidr = some s ∧ s.Has words

theorem subnetOf_eq_some {number : List Char → Option ℤ} {cidr : List Char} {s : Subnet} (h : subnetOf number cidr = some s) :
    s.words.length = 8 ∧ (∀ w ∈ s.words, w < 65536) ∧ s.bits ≤ 128 := by
  rw [subnetOf] at h
  split at h
  · cases h
  · rename_i net rest hsplit
    generalize (if (ipv4 net).isNone then (128 : ℤ) else 32) = max at h
    dsimp only at h
    split at h
    · rename_i words n hwords hn
      split_ifs at h with hrange
      obtain rfl := Option.some.inj h
      obtain ⟨hlength, hbound⟩ := ipWords_eq_some hwords
      refine ⟨hlength, hbound, ?_⟩
      show (n + 128 - max).toNat ≤ 128
      omega
    · cases h

/-- The loop over the words compares them one by one. -/
theorem covers_iff {words : List ℕ} {s : Subnet} (hlength : words.length = s.words.length) :
    covers words s ↔ Agree s.bits words s.words := by
  have hgen : ∀ (us vs : List ℕ) (i : ℕ), us.length = vs.length → (∀ j, vs.getD j 0 = s.words.getD (i + j) 0) →
      ((us.zipIdx i).all (fun (w, i) =>
        w &&& ((0xffff <<< (16 - min 16 (s.bits - i * 16))) &&& 0xffff) ==
          s.words.getD i 0 &&& ((0xffff <<< (16 - min 16 (s.bits - i * 16))) &&& 0xffff)) = true ↔ Agree (s.bits - i * 16) us vs) := by
    intro us
    induction us with
    | nil =>
      intro vs i hlength hget
      cases vs with
      | nil => simp [Agree]
      | cons v vs => cases hlength
    | cons u us ih =>
      intro vs i hlength hget
      cases vs with
      | nil => cases hlength
      | cons v vs =>
        have hfirst := hget 0
        rw [List.zipIdx_cons, List.all_cons, Bool.and_eq_true, ih vs (i + 1) (Nat.succ.inj hlength)
          (fun j => by rw [Nat.add_assoc, Nat.add_comm 1 j, ← hget (j + 1), List.getD_cons_succ]), Agree, Nat.sub_sub, Nat.succ_mul]
        rw [List.getD_cons_zero, Nat.add_zero] at hfirst
        simp only [← hfirst, beq_iff_eq]
        rfl
  have hall := hgen words s.words 0 hlength (fun j => by rw [Nat.zero_add])
  rw [Nat.zero_mul, Nat.sub_zero] at hall
  exact hall

theorem isTrusted_iff {number : List Char → Option ℤ} {trusted : List (List Char)} {a : List Char} :
    isTrusted number trusted a ↔ InTrusted number trusted a := by
  rw [isTrusted, InTrusted]
  cases hwords : ipWords a with
  | none => simp
  | some words =>
    obtain ⟨hlength, hbound⟩ := ipWords_eq_some hwords
    have hcovers : ∀ cidr s, subnetOf number cidr = some s → (covers words s ↔ s.Has words) := by
      intro cidr s hs
      obtain ⟨hlength', hbound', hbits⟩ := subnetOf_eq_some hs
      rw [covers_iff (hlength.trans hlength'.symm), Prefixes.agree_iff (hlength.trans hlength'.symm) hbound hbound' (by omega),
        hlength, Subnet.Has]
    simp only [List.any_eq_true, List.mem_filterMap, Option.some.injEq, exists_eq_left']
    constructor
    · rintro ⟨s, ⟨cidr, hmem, hs⟩, hin⟩
      exact ⟨cidr, hmem, s, hs, (hcovers cidr s hs).1 hin⟩
    · rintro ⟨cidr, hmem, s, hs, hin⟩
      exact ⟨s, ⟨cidr, hmem, hs⟩, (hcovers cidr s hs).2 hin⟩

/-- The answer is the last of the entries that is not trusted, or the first of all. -/
theorem stepLeft_spec (isTrusted : List Char → Bool) (peer : List Char) (hops : List (List Char)) :
    ∃ left right, hops.reverse ++ [peer] = left ++ stepLeft isTrusted peer hops :: right ∧ (∀ x ∈ right, isTrusted x) ∧
      (isTrusted (stepLeft isTrusted peer hops) → left = []) := by
  induction hops generalizing peer with
  | nil => exact ⟨[], [], rfl, by simp, fun _ => rfl⟩
  | cons hop hops ih =>
    rw [stepLeft]
    split_ifs with htrusted
    · obtain ⟨left, right, heq, hright, hleft⟩ := ih hop
      refine ⟨left, right ++ [peer], ?_, ?_, hleft⟩
      · rw [List.reverse_cons, heq, List.append_assoc, List.cons_append]
      · intro x hx
        rcases List.mem_append.1 hx with hx | hx
        · exact hright x hx
        · rwa [List.mem_singleton.1 hx]
    · exact ⟨(hop :: hops).reverse, [], rfl, by simp, fun h => absurd h htrusted⟩

/-- What lies left of an entry that is not trusted does not matter. -/
theorem stepLeft_append (isTrusted : List Char → Bool) (peer : List Char) {hops : List (List Char)}
    (h : ∃ x ∈ peer :: hops, ¬ isTrusted x) (more : List (List Char)) :
    stepLeft isTrusted peer (hops ++ more) = stepLeft isTrusted peer hops := by
  induction hops generalizing peer with
  | nil =>
    obtain ⟨x, hx, huntrusted⟩ := h
    rw [List.mem_singleton] at hx
    subst hx
    cases more with
    | nil => rfl
    | cons hop more =>
      show (if isTrusted x then stepLeft isTrusted hop more else x) = x
      rw [if_neg huntrusted]
  | cons hop hops ih =>
    rw [List.cons_append, stepLeft, stepLeft]
    split_ifs with htrusted
    · apply ih
      obtain ⟨x, hx, huntrusted⟩ := h
      rcases List.mem_cons.1 hx with rfl | hx
      · exact absurd htrusted huntrusted
      · exact ⟨x, hx, huntrusted⟩
    · rfl

theorem hopsOf_append (left right : List Char) :
    hopsOf (some (left ++ ',' :: right)) = hopsOf (some left) ++ hopsOf (some right) := by
  rw [hopsOf, hopsOf, hopsOf, Option.getD_some, Option.getD_some, Option.getD_some, List.splitOn_append_cons_self,
    List.map_append, List.filter_append]

/-- What an address denotes to a rate limit: an IPv4 address, also by a mapped one, or an IPv6 /64. -/
inductive Net where
  | v4 (words : List ℕ)
  | v6 (words : List ℕ)
  deriving DecidableEq

def net (words : List ℕ) : Net := if words.take 6 = mappedPrefix then .v4 (words.drop 6) else .v6 (words.take 4)

/-- A mapped address spelled otherwise than `::ffff:` with a dotted quad. -/
def Respelled (a : List Char) (words : List ℕ) : Prop :=
  ipv4 a = none ∧ mappedQuad a = none ∧ words.take 6 = mappedPrefix

def bucketText : Net → List Char
  | .v4 words => joined '.' 10 (words.flatMap fun w => [w / 256, w % 256])
  | .v6 words => joined ':' 16 words ++ "::/64".toList

theorem colon_not_mem_quad (quad : List ℕ) : ':' ∉ joined '.' 10 quad := by
  intro hmem
  rcases Numerals.mem_joined (by decide) hmem with h | ⟨d, hd, h⟩
  · exact absurd h (by decide)
  · have hall : ∀ d < 10, ':' ≠ d.digitChar := by decide
    exact hall d hd h

theorem splitPairs_of_not_mem {a : List Char} (h : ':' ∉ a) : splitPairs a = [a] := by
  induction a with
  | nil => rfl
  | cons c a ih =>
    have hc : c ≠ ':' := fun heq => h (heq ▸ List.mem_cons_self)
    rw [splitPairs, ih fun hmem => h (List.mem_cons_of_mem _ hmem)]
    · rfl
    · rintro rest rfl
      exact absurd rfl hc

/-- A single colon does not split. -/
theorem splitPairs_single {a b : List Char} (ha : ':' ∉ a) (hb : ':' ∉ b) : splitPairs (a ++ ':' :: b) = [a ++ ':' :: b] := by
  induction a with
  | nil =>
    rw [List.nil_append, splitPairs, splitPairs_of_not_mem hb]
    · rfl
    · rintro rest - rfl
      exact hb List.mem_cons_self
  | cons c a ih =>
    have hc : c ≠ ':' := fun heq => ha (heq ▸ List.mem_cons_self)
    rw [List.cons_append, splitPairs, ih fun hmem => ha (List.mem_cons_of_mem _ hmem)]
    · rfl
    · rintro rest rfl
      exact absurd rfl hc

theorem letter_f {f : Char} (h : f = 'f' ∨ f = 'F') : ':' ≠ f ∧ isHexDigit f ∧ hexDigit f = 15 := by
  rcases h with rfl | rfl <;> decide

theorem mappedQuad_eq_some {a quad : List Char} (h : mappedQuad a = some quad) :
    ∃ word, a = ':' :: ':' :: (word ++ ':' :: quad) ∧ ':' ∉ word ∧ isGroup word ∧ parseHex word = 0xffff ∧
      ':' ∉ quad ∧ '.' ∈ quad := by
  rw [mappedQuad.eq_def] at h
  split at h
  · rename_i f₁ f₂ f₃ f₄ quad'
    dsimp only at h
    split_ifs at h with hcond
    obtain rfl := Option.some.inj h
    simp only [Bool.and_eq_true, beq_iff_eq, List.all_cons, List.all_nil, Bool.or_eq_true, and_true] at hcond
    obtain ⟨⟨⟨h₁, h₂, h₃, h₄⟩, hlength⟩, hparts⟩ := hcond
    obtain ⟨hc₁, hx₁, hv₁⟩ := letter_f h₁
    obtain ⟨hc₂, hx₂, hv₂⟩ := letter_f h₂
    obtain ⟨hc₃, hx₃, hv₃⟩ := letter_f h₃
    obtain ⟨hc₄, hx₄, hv₄⟩ := letter_f h₄
    refine ⟨[f₁, f₂, f₃, f₄], rfl, ?_, ?_, ?_, ?_, ?_⟩
    · simp [hc₁, hc₂, hc₃, hc₄]
    · simp [isGroup, hx₁, hx₂, hx₃, hx₄]
    · simp [parseHex, hv₁, hv₂, hv₃, hv₄]
    · have hjoin : ['.'].intercalate (quad'.splitOn '.') = quad' := List.intercalate_splitOn '.'
      rw [← hjoin]
      intro hmem
      rcases Numerals.mem_intercalate hmem with hdot | ⟨part, hpart, hmem⟩
      · exact absurd hdot (by decide)
      · have hdigits := List.all_eq_true.1 hparts part hpart
        rw [Bool.and_eq_true] at hdigits
        exact absurd (List.all_eq_true.1 hdigits.2 ':' hmem) (by decide)
    · by_contra hnone
      rw [List.splitOn_eq_singleton hnone] at hlength
      cases hlength
  · cases h

/-- The last group of an address may be a quad. -/
theorem groupWords_quad {a : List Char} (hdot : '.' ∈ a) : groupWords true [a] = (ipv4 a).map quadWords := by
  have hcontains : a.contains '.' = true := by rwa [List.contains_iff_mem]
  have hgroup : isGroup a = false := by
    rw [isGroup, Bool.and_eq_false_iff]
    right
    rw [List.all_eq_false]
    exact ⟨'.', hdot, by decide⟩
  rw [groupWords, hcontains, List.isEmpty_nil, Bool.and_self, Bool.and_self, if_pos rfl, groupWords]
  cases ipv4 a with
  | none =>
    show (if isGroup a then _ else _) = _
    rw [hgroup]
    rfl
  | some quad =>
    show some (quadWords quad ++ []) = some (quadWords quad)
    rw [List.append_nil]

/-- IPv4 text is no IPv6 text, nor a mapped one. -/
theorem ipv6_of_ipv4 {a : List Char} {quad : List ℕ} (h : ipv4 a = some quad) : ipv6 a = none ∧ mappedQuad a = none := by
  obtain ⟨htext, hlength, hbytes⟩ := ipv4_eq_some h
  have hcolon : ':' ∉ a := htext ▸ colon_not_mem_quad quad
  have hdot : '.' ∈ a := by
    by_contra hnone
    have hsplit := Numerals.splitOn_joined (b := 10) (by decide) (show ∀ d < 10, '.' ≠ d.digitChar by decide)
      (show quad ≠ [] by rintro rfl; cases hlength)
    rw [← htext, List.splitOn_eq_singleton hnone] at hsplit
    have := congrArg List.length hsplit
    rw [List.length_map, hlength] at this
    cases this
  constructor
  · obtain ⟨hi, lo, hwords, -⟩ := exists_quadWords hlength hbytes
    have hempty : a.isEmpty = false := List.isEmpty_eq_false_iff.2 (List.ne_nil_of_mem hdot)
    simp only [ipv6, splitPairs_of_not_mem hcolon, partWords, hempty, Bool.false_eq_true, if_false,
      List.splitOn_eq_singleton hcolon, groupWords_quad hdot, h, Option.map_some, hwords, Option.bind_some]
    rfl
  · cases hmapped : mappedQuad a with
    | none => rfl
    | some quad' =>
      obtain ⟨word, heq, -⟩ := mappedQuad_eq_some hmapped
      exact absurd (heq ▸ List.mem_cons_self) hcolon

/-- A mapped address denotes the IPv4 address of its quad. -/
theorem ipv6_of_mappedQuad {a quad : List Char} {words : List ℕ} (h : mappedQuad a = some quad) (hwords : ipv6 a = some words) :
    ∃ bytes, ipv4 quad = some bytes ∧ words = mappedPrefix ++ quadWords bytes := by
  obtain ⟨word, rfl, hword, hgroup, hvalue, hquad, hdot⟩ := mappedQuad_eq_some h
  have hempty : (word ++ ':' :: quad).isEmpty = false := List.isEmpty_eq_false_iff.2 (by simp)
  have hfirst : groupWords true (word :: [quad]) = (groupWords true [quad]).map (0xffff :: ·) := by
    rw [groupWords]
    simp [hgroup, hvalue]
  simp only [ipv6, splitPairs, splitPairs_single hword hquad, partWords, List.isEmpty_nil, if_true, hempty, Bool.false_eq_true,
    if_false, List.splitOn_append_cons_self_of_not_mem hword, List.splitOn_eq_singleton hquad, hfirst, groupWords_quad hdot,
    Option.bind_some] at hwords
  cases hbytes : ipv4 quad with
  | none =>
    rw [hbytes] at hwords
    cases hwords
  | some bytes =>
    obtain ⟨-, hlength, hbound⟩ := ipv4_eq_some hbytes
    obtain ⟨hi, lo, hpair, -⟩ := exists_quadWords hlength hbound
    rw [hbytes, Option.map_some, hpair] at hwords
    refine ⟨bytes, rfl, ?_⟩
    rw [hpair]
    exact (Option.some.inj hwords).symm

instance (a : List Char) (words : List ℕ) : Decidable (Respelled a words) :=
  inferInstanceAs (Decidable (ipv4 a = none ∧ mappedQuad a = none ∧ words.take 6 = mappedPrefix))

/-- The bucket of a mapped address's words is their quad. -/
theorem bucketText_mapped {bytes : List ℕ} {quad : List Char} (h : ipv4 quad = some bytes) :
    bucketText (net (mappedPrefix ++ quadWords bytes)) = quad := by
  obtain ⟨htext, hlength, hbound⟩ := ipv4_eq_some h
  obtain ⟨hi, lo, hpair, -, -, hbytes⟩ := exists_quadWords hlength hbound
  rw [hpair]
  show joined '.' 10 [hi / 256, hi % 256, lo / 256, lo % 256] = quad
  rw [hbytes, htext]

/-- Only a respelled address is counted as another network than it denotes. -/
theorem addressBucket_eq {a : List Char} {words : List ℕ} (h : ipWords a = some words) :
    addressBucket a = bucketText (if Respelled a words then .v6 [0, 0, 0, 0] else net words) := by
  rw [ipWords] at h
  cases h4 : ipv4 a with
  | some quad =>
    obtain ⟨h6, hmapped⟩ := ipv6_of_ipv4 h4
    rw [h4] at h
    obtain rfl := Option.some.inj h
    have hnot : ¬ Respelled a (mappedPrefix ++ quadWords quad) := by
      rintro ⟨hnone, -⟩
      rw [h4] at hnone
      cases hnone
    rw [if_neg hnot, bucketText_mapped h4, addressBucket, hmapped, h6]
  | none =>
    rw [h4] at h
    have h6 : ipv6 a = some words := h
    cases hmapped : mappedQuad a with
    | some quad =>
      obtain ⟨bytes, hbytes, rfl⟩ := ipv6_of_mappedQuad hmapped h6
      have hnot : ¬ Respelled a (mappedPrefix ++ quadWords bytes) := by
        rintro ⟨-, hnone, -⟩
        rw [hmapped] at hnone
        cases hnone
      rw [if_neg hnot, bucketText_mapped hbytes, addressBucket, hmapped]
    | none =>
      rw [addressBucket, hmapped, h6]
      show joined ':' 16 (words.take 4) ++ _ = _
      by_cases hprefix : words.take 6 = mappedPrefix
      · -- the first four words of a mapped address are zero
        have hfour : words.take 4 = [0, 0, 0, 0] := by
          rw [show words.take 4 = (words.take 6).take 4 by rw [List.take_take]; rfl, hprefix]
          rfl
        rw [if_pos ⟨h4, hmapped, hprefix⟩, hfour]
        rfl
      · have hnot : ¬ Respelled a words := fun hre => hprefix hre.2.2
        rw [if_neg hnot, net, if_neg hprefix]
        rfl

/-- The words of a network. -/
def Net.Valid : Net → Prop
  | .v4 words => words.length = 2
  | .v6 words => words.length = 4

theorem net_valid {words : List ℕ} (h : words.length = 8) : (net words).Valid := by
  rw [net]
  split_ifs
  · show (words.drop 6).length = 2
    rw [List.length_drop, h]
  · show (words.take 4).length = 4
    rw [List.length_take, h]
    rfl

theorem bytes_injective {us vs : List ℕ} (h : (us.flatMap fun w => [w / 256, w % 256]) = vs.flatMap fun w => [w / 256, w % 256]) :
    us = vs := by
  induction us generalizing vs with
  | nil =>
    cases vs with
    | nil => rfl
    | cons v vs => cases h
  | cons u us ih =>
    cases vs with
    | nil => cases h
    | cons v vs =>
      simp only [List.flatMap_cons, List.cons_append, List.nil_append, List.cons.injEq] at h
      rw [ih h.2.2, show u = v by omega]

/-- A network is told by its bucket. -/
theorem bucketText_injective {m n : Net} (hm : m.Valid) (hn : n.Valid) (h : bucketText m = bucketText n) : m = n := by
  have hcolon : ∀ us : List ℕ, ':' ∈ bucketText (.v6 us) := fun us => List.mem_append_right _ (by decide)
  have hnone : ∀ us : List ℕ, ':' ∉ bucketText (.v4 us) := fun us => colon_not_mem_quad _
  have hne : ∀ us : List ℕ, us.length = 2 → (us.flatMap fun w => [w / 256, w % 256]) ≠ [] := by
    rintro (_ | ⟨u, us⟩) hlength
    · cases hlength
    · exact List.cons_ne_nil _ _
  cases m with
  | v4 us =>
    cases n with
    | v4 vs =>
      rw [bytes_injective (Numerals.joined_injective (by decide) (by decide) (by decide) (hne us hm) (hne vs hn) h)]
    | v6 vs => exact absurd (h ▸ hcolon vs) (hnone us)
  | v6 us =>
    cases n with
    | v4 vs => exact absurd (h ▸ hcolon us) (hnone vs)
    | v6 vs =>
      have hus : us ≠ [] := by
        rintro rfl
        cases hm
      have hvs : vs ≠ [] := by
        rintro rfl
        cases hn
      rw [Numerals.joined_injective (by decide) (by decide) (by decide) hus hvs (List.append_cancel_right h)]

/-- A respelled address is met only by another respelling of its network, or by an address
outside `::/64` that denotes another network. -/
def Told (a b : List Char) (wa wb : List ℕ) : Prop :=
  (Respelled a wa → (Respelled b wb ∧ net wa = net wb) ∨ (¬ Respelled b wb ∧ net wb ≠ .v6 [0, 0, 0, 0] ∧ net wa ≠ net wb)) ∧
    (Respelled b wb → (Respelled a wa ∧ net wa = net wb) ∨ (¬ Respelled a wa ∧ net wa ≠ .v6 [0, 0, 0, 0] ∧ net wa ≠ net wb))

theorem net_ne_of_respelled {a : List Char} {words : List ℕ} (h : Respelled a words) : net words ≠ .v6 [0, 0, 0, 0] := by
  rw [net, if_pos h.2.2]
  exact Net.noConfusion

theorem addressBucket_eq_iff {a b : List Char} {wa wb : List ℕ} (ha : ipWords a = some wa) (hb : ipWords b = some wb) :
    addressBucket a = addressBucket b ↔
      (if Respelled a wa then .v6 [0, 0, 0, 0] else net wa) = if Respelled b wb then .v6 [0, 0, 0, 0] else net wb := by
  have hvalid : ∀ c wc, ipWords c = some wc → (if Respelled c wc then Net.v6 [0, 0, 0, 0] else net wc).Valid := by
    intro c wc hc
    split_ifs
    · rfl
    · exact net_valid (ipWords_eq_some hc).1
  rw [addressBucket_eq ha, addressBucket_eq hb]
  exact ⟨bucketText_injective (hvalid a wa ha) (hvalid b wb hb), congrArg bucketText⟩

/-- Buckets tell networks apart exactly where no respelled address comes between. -/
theorem told_iff {a b : List Char} {wa wb : List ℕ} (ha : ipWords a = some wa) (hb : ipWords b = some wb) :
    (addressBucket a = addressBucket b ↔ net wa = net wb) ↔ Told a b wa wb := by
  rw [addressBucket_eq_iff ha hb, Told]
  by_cases hra : Respelled a wa
  · have hna := net_ne_of_respelled hra
    by_cases hrb : Respelled b wb
    · simp [hra, hrb]
    · simp only [hra, hrb, if_true, if_false, true_implies, false_and, not_false_eq_true, true_and, false_or, false_implies, and_true]
      constructor
      · intro heq
        have hzero : net wb ≠ .v6 [0, 0, 0, 0] := fun hzero => hna ((heq.1 hzero.symm).trans hzero)
        exact ⟨hzero, fun hsame => hzero (heq.2 hsame).symm⟩
      · rintro ⟨hzero, hother⟩
        exact ⟨fun h => absurd h.symm hzero, fun h => absurd h hother⟩
  · by_cases hrb : Respelled b wb
    · have hnb := net_ne_of_respelled hrb
      simp only [hra, hrb, if_true, if_false, true_implies, false_and, not_false_eq_true, true_and, false_or, false_implies]
      constructor
      · intro heq
        have hzero : net wa ≠ .v6 [0, 0, 0, 0] := fun hzero => hnb ((heq.1 hzero).symm.trans hzero)
        exact ⟨hzero, fun hsame => hzero (heq.2 hsame)⟩
      · rintro ⟨hzero, hother⟩
        exact ⟨fun h => absurd h hzero, fun h => absurd h hother⟩
    · simp [hra, hrb]

/-- The client's address is the last entry outside the trusted subnets, or the first entry of all;
what stands left of it does not matter.  Its bucket is its own network's, but for respelled ones. -/
theorem clientAddress_addressBucket (number : List Char → Option ℤ) :
    (∀ peer forwardedFor trusted, ∃ left right,
      hopsOf forwardedFor ++ [peer] = left ++ clientAddress number peer forwardedFor trusted :: right ∧
        (∀ x ∈ right, InTrusted number trusted x) ∧
        (InTrusted number trusted (clientAddress number peer forwardedFor trusted) → left = [])) ∧
    (∀ peer trusted left left' right, (∃ x ∈ hopsOf (some right) ++ [peer], ¬ InTrusted number trusted x) →
      clientAddress number peer (some (left ++ ',' :: right)) trusted =
        clientAddress number peer (some (left' ++ ',' :: right)) trusted) ∧
    ∀ a b wa wb, ipWords a = some wa → ipWords b = some wb →
      ((addressBucket a = addressBucket b ↔ net wa = net wb) ↔ Told a b wa wb) := by
  refine ⟨?_, ?_, fun _ _ _ _ => told_iff⟩
  · intro peer forwardedFor trusted
    obtain ⟨left, right, heq, hright, hleft⟩ := stepLeft_spec (isTrusted number trusted) peer (hopsOf forwardedFor).reverse
    rw [List.reverse_reverse] at heq
    exact ⟨left, right, heq, fun x hx => isTrusted_iff.1 (hright x hx), fun h => hleft (isTrusted_iff.2 h)⟩
  · intro peer trusted left left' right hstop
    have hany : ∃ x ∈ peer :: (hopsOf (some right)).reverse, ¬ isTrusted number trusted x := by
      obtain ⟨x, hx, huntrusted⟩ := hstop
      refine ⟨x, ?_, fun h => huntrusted (isTrusted_iff.1 h)⟩
      rw [List.mem_append, List.mem_singleton] at hx
      rw [List.mem_cons, List.mem_reverse]
      exact hx.symm
    rw [clientAddress, clientAddress, hopsOf_append, hopsOf_append, List.reverse_append, List.reverse_append,
      stepLeft_append _ _ hany, stepLeft_append _ _ hany]

theorem clientAddress_addressBucket_mapped :
    clientAddress (fun _ => none) "1.2.3.4".toList (some ("6.6.6.6".toList ++ ',' :: "5.5.5.5".toList)) [] =
        clientAddress (fun _ => none) "1.2.3.4".toList (some ("7.7.7.7".toList ++ ',' :: "5.5.5.5".toList)) [] ∧
      (addressBucket "::FFFF:10.0.0.1".toList = addressBucket "10.0.0.1".toList ↔
        net (mappedPrefix ++ [2560, 1]) = net (mappedPrefix ++ [2560, 1])) := by
  refine ⟨(clientAddress_addressBucket fun _ => none).2.1 _ _ _ _ _ ⟨"1.2.3.4".toList, by simp, ?_⟩,
    ((clientAddress_addressBucket fun _ => none).2.2 _ _ _ _ (by decide) (by decide)).2 (by rw [Told]; decide)⟩
  rintro ⟨-, -, cidr, hmem, -⟩
  cases hmem

/-- One IPv4 address has two buckets, one of which it shares with `::1`. -/
theorem addressBucket_respelled :
    ipWords "::ffff:102:304".toList = ipWords "::ffff:1.2.3.4".toList ∧
      addressBucket "::ffff:102:304".toList ≠ addressBucket "::ffff:1.2.3.4".toList ∧
      addressBucket "::ffff:102:304".toList = addressBucket "::1".toList := by
  decide

end Norbital.Bolt

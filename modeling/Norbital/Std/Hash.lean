import Mathlib.Data.List.GetD
import Mathlib.Data.Rat.Floor
import Norbital.Lib.Doubles
import Norbital.Lib.Sha256

/-!
# The portable hash

`scalar` of `std/src/hash.ts`, the SHA-256 of a process without one of its own.  A number
is a whole number; a sum or a product is rounded to a double, an operator on 32 bits takes
its numbers modulo `2 ^ 32` and gives a signed number, and `>>>` and a `Uint32Array` give an
unsigned one.
-/

namespace Norbital.Std.Hash

open Sha256 (Word State)

/-- `ToInt32` and `ToUint32`, as the bits they share. -/
def bits (x : ℤ) : Word := BitVec.ofInt 32 x

/-- `x | y`. -/
def bor (x y : ℤ) : ℤ := (bits x ||| bits y).toInt

/-- `x & y`. -/
def band (x y : ℤ) : ℤ := (bits x &&& bits y).toInt

/-- `x ^ y`. -/
def bxor (x y : ℤ) : ℤ := (bits x ^^^ bits y).toInt

/-- `~x`. -/
def bnot (x : ℤ) : ℤ := (~~~bits x).toInt

/-- `x << n`. -/
def shl (x : ℤ) (n : ℕ) : ℤ := (bits x <<< (n % 32)).toInt

/-- `x >>> n`. -/
def ushr (x : ℤ) (n : ℕ) : ℤ := (bits x >>> (n % 32)).toNat

/-- `x + y`. -/
def plus (x y : ℤ) : ℤ := (Doubles.double (x + y : ℤ)).num

/-- The elements of a `Uint32Array`. -/
abbrev Uint32Array := List ℤ

/-- `a[i]`. -/
def load (a : Uint32Array) (i : ℕ) : ℤ := a.getD i 0

/-- `a[i] = x`. -/
def store (a : Uint32Array) (i : ℕ) (x : ℤ) : Uint32Array := a.set i (bits x).toNat

/-- `tail.set(bs, i)`. -/
def setAt (tail : List UInt8) (i : ℕ) (bs : List UInt8) : List UInt8 := tail.take i ++ bs ++ tail.drop (i + bs.length)

/-- The bytes `setUint32` writes. -/
def uint32 (x : ℤ) : List UInt8 := Sha256.bigEndian 4 (bits x).toNat

/-- The bytes after the full blocks, with the mark and the length behind them. -/
def tailOf (data : List UInt8) : List UInt8 :=
  let n := data.length
  let full := n - n % 64
  let tail := List.replicate (if n - full < 56 then 64 else 128) 0
  let tail := setAt tail 0 (data.drop full)
  let tail := setAt tail (n - full) [0x80]
  let tail := setAt tail (tail.length - 8) (uint32 ⌊Doubles.double (n / 0x20000000)⌋)
  setAt tail (tail.length - 4) (uint32 (ushr (Doubles.double (n * 8 : ℤ)).num 0))

/-- `blocks`: the full blocks in place, then the one or two of the tail. -/
def blocks {σ : Type} (data : List UInt8) (block : σ → List UInt8 → ℕ → σ) (s : σ) : σ :=
  let n := data.length
  let full := n - n % 64
  let s := (List.range (full / 64)).foldl (fun s k => block s data (64 * k)) s
  let tail := tailOf data
  (List.range (tail.length / 64)).foldl (fun s k => block s tail (64 * k)) s

def word (b : List UInt8) (i : ℕ) : ℤ :=
  let byte j : ℤ := (b.getD (i + j) 0).toNat
  bor (bor (bor (shl (byte 0) 24) (shl (byte 1) 16)) (shl (byte 2) 8)) (byte 3)

def rotr (x : ℤ) (n : ℕ) : ℤ := bor (ushr x n) (shl x (32 - n))

def k256 : Uint32Array := [
  0x428a2f98, 0x71374491, 0xb5c0fbcf, 0xe9b5dba5, 0x3956c25b, 0x59f111f1, 0x923f82a4, 0xab1c5ed5,
  0xd807aa98, 0x12835b01, 0x243185be, 0x550c7dc3, 0x72be5d74, 0x80deb1fe, 0x9bdc06a7, 0xc19bf174,
  0xe49b69c1, 0xefbe4786, 0x0fc19dc6, 0x240ca1cc, 0x2de92c6f, 0x4a7484aa, 0x5cb0a9dc, 0x76f988da,
  0x983e5152, 0xa831c66d, 0xb00327c8, 0xbf597fc7, 0xc6e00bf3, 0xd5a79147, 0x06ca6351, 0x14292967,
  0x27b70a85, 0x2e1b2138, 0x4d2c6dfc, 0x53380d13, 0x650a7354, 0x766a0abb, 0x81c2c92e, 0x92722c85,
  0xa2bfe8a1, 0xa81a664b, 0xc24b8b70, 0xc76c51a3, 0xd192e819, 0xd6990624, 0xf40e3585, 0x106aa070,
  0x19a4c116, 0x1e376c08, 0x2748774c, 0x34b0bcb5, 0x391c0cb3, 0x4ed8aa4a, 0x5b9cca4f, 0x682e6ff3,
  0x748f82ee, 0x78a5636f, 0x84c87814, 0x8cc70208, 0x90befffa, 0xa4506ceb, 0xbef9a3f7, 0xc67178f2]

/-- The arrays a hash keeps from block to block. -/
structure Memory where
  h : Uint32Array
  w : Uint32Array

/-- `w[t] = ...` for `t` from 16. -/
def extend (w : Uint32Array) (t : ℕ) : Uint32Array :=
  let x := load w (t - 15)
  let y := load w (t - 2)
  store w t (plus (plus (plus (load w (t - 16)) (bxor (bxor (rotr x 7) (rotr x 18)) (ushr x 3))) (load w (t - 7)))
    (bxor (bxor (rotr y 17) (rotr y 19)) (ushr y 10)))

/-- The local variables of the rounds. -/
structure Locals where
  a : ℤ
  bb : ℤ
  c : ℤ
  d : ℤ
  e : ℤ
  f : ℤ
  g : ℤ
  hh : ℤ

def round (k w : ℤ) (v : Locals) : Locals :=
  let t1 := bor (plus (plus (plus (plus v.hh (bxor (bxor (rotr v.e 6) (rotr v.e 11)) (rotr v.e 25)))
    (bxor (band v.e v.f) (band (bnot v.e) v.g))) k) w) 0
  let t2 := bor (plus (bxor (bxor (rotr v.a 2) (rotr v.a 13)) (rotr v.a 22))
    (bxor (bxor (band v.a v.bb) (band v.a v.c)) (band v.bb v.c))) 0
  ⟨bor (plus t1 t2) 0, v.a, v.bb, v.c, bor (plus v.d t1) 0, v.e, v.f, v.g⟩

def scheduled (w : Uint32Array) (b : List UInt8) (o : ℕ) : Uint32Array :=
  let w := (List.range 16).foldl (fun w t => store w t (word b (o + t * 4))) w
  (List.range' 16 48).foldl extend w

def rounds (h w : Uint32Array) : Locals :=
  (List.range 64).foldl (fun v t => round (load k256 t) (load w t) v)
    ⟨load h 0, load h 1, load h 2, load h 3, load h 4, load h 5, load h 6, load h 7⟩

/-- `h[i] = h[i]! + ...`. -/
def added (h : Uint32Array) (v : Locals) : Uint32Array :=
  let h := store h 0 (plus (load h 0) v.a)
  let h := store h 1 (plus (load h 1) v.bb)
  let h := store h 2 (plus (load h 2) v.c)
  let h := store h 3 (plus (load h 3) v.d)
  let h := store h 4 (plus (load h 4) v.e)
  let h := store h 5 (plus (load h 5) v.f)
  let h := store h 6 (plus (load h 6) v.g)
  store h 7 (plus (load h 7) v.hh)

/-- One block, at an offset of its bytes. -/
def hashBlock (s : Memory) (b : List UInt8) (o : ℕ) : Memory :=
  let w := scheduled s.w b o
  ⟨added s.h (rounds s.h w), w⟩

def initial : Memory where
  h := [0x6a09e667, 0xbb67ae85, 0x3c6ef372, 0xa54ff53a, 0x510e527f, 0x9b05688c, 0x1f83d9ab, 0x5be0cd19]
  w := List.replicate 64 0

/-- `scalar` of a byte string. -/
def scalar (data : List UInt8) : List UInt8 :=
  (blocks data hashBlock initial).h.flatMap uint32

@[simp] theorem bits_toInt (v : Word) : bits v.toInt = v := BitVec.ofInt_toInt

@[simp] theorem bits_toNat (v : Word) : bits (v.toNat : ℤ) = v := by
  rw [bits, BitVec.ofInt_natCast, BitVec.ofNat_toNat, BitVec.setWidth_eq]

@[simp] theorem bits_bor (x y : ℤ) : bits (bor x y) = bits x ||| bits y := bits_toInt _

@[simp] theorem bits_band (x y : ℤ) : bits (band x y) = bits x &&& bits y := bits_toInt _

@[simp] theorem bits_bxor (x y : ℤ) : bits (bxor x y) = bits x ^^^ bits y := bits_toInt _

@[simp] theorem bits_bnot (x : ℤ) : bits (bnot x) = ~~~bits x := bits_toInt _

@[simp] theorem bits_shl (x : ℤ) (n : ℕ) : bits (shl x n) = bits x <<< (n % 32) := bits_toInt _

@[simp] theorem bits_ushr (x : ℤ) (n : ℕ) : bits (ushr x n) = bits x >>> (n % 32) := bits_toNat _

@[simp] theorem bits_add (x y : ℤ) : bits (x + y) = bits x + bits y := BitVec.ofInt_add ..

@[simp] theorem bits_zero : bits 0 = 0 := rfl

theorem bits_rotr (x : ℤ) {n : ℕ} (hpos : 0 < n) (hlt : n < 32) : bits (rotr x n) = (bits x).rotateRight n := by
  have hmod : n % 32 = n := Nat.mod_eq_of_lt hlt
  have hmod' : (32 - n) % 32 = 32 - n := Nat.mod_eq_of_lt (by omega)
  rw [rotr, bits_bor, bits_ushr, bits_shl, hmod, hmod', BitVec.rotateRight_eq_rotateRightAux_of_lt hlt]
  rfl

/-- A number that an operator on 32 bits gives. -/
def Small (x : ℤ) : Prop := |x| ≤ 4294967296

theorem small_toInt (v : Word) : Small v.toInt := by
  have hlow := BitVec.le_toInt v
  have hhigh := BitVec.toInt_lt (x := v)
  rw [Small, abs_le]
  constructor
  · norm_num at hlow ⊢
    omega
  · norm_num at hhigh ⊢
    omega

theorem small_toNat (v : Word) : Small v.toNat := by
  have hlt := v.isLt
  rw [Small, abs_le]
  constructor
  · omega
  · norm_num at hlt ⊢
    omega

/-- A sum far under `2 ^ 53` is not rounded. -/
theorem plus_eq {x y : ℤ} (h : |x + y| < 2 ^ 53) : plus x y = x + y := by
  rw [plus, Doubles.double_intCast h, Rat.num_intCast]

theorem bytes_or {a b c d : ℕ} (hb : b < 256) (hc : c < 256) (hd : d < 256) :
    a <<< 24 ||| b <<< 16 ||| c <<< 8 ||| d = ((a * 256 + b) * 256 + c) * 256 + d := by
  have hab : a <<< 24 ||| b <<< 16 = 2 ^ 16 * (a * 256 + b) := by
    have h := Nat.two_pow_add_eq_or_of_lt (i := 24) (b := b <<< 16) (by rw [Nat.shiftLeft_eq]; omega) a
    rw [Nat.shiftLeft_eq a, Nat.mul_comm a, ← h, Nat.shiftLeft_eq]
    omega
  have habc : 2 ^ 16 * (a * 256 + b) ||| c <<< 8 = 2 ^ 8 * ((a * 256 + b) * 256 + c) := by
    rw [← Nat.two_pow_add_eq_or_of_lt (by rw [Nat.shiftLeft_eq]; omega), Nat.shiftLeft_eq]
    omega
  rw [hab, habc, ← Nat.two_pow_add_eq_or_of_lt (by omega)]
  omega

theorem bits_word (b : List UInt8) (i : ℕ) : bits (word b i) = Sha256.wordAt b i := by
  have hbyte : ∀ j, (b.getD (i + j) 0).toNat < 256 := fun j => UInt8.toNat_lt _
  have hbits : ∀ n : ℕ, bits (n : ℤ) = BitVec.ofNat 32 n := fun n => BitVec.ofInt_natCast ..
  rw [word, Sha256.wordAt]
  simp only [bits_bor, bits_shl, hbits]
  have h0 := hbyte 0
  have h1 := hbyte 1
  have h2 := hbyte 2
  have h3 := hbyte 3
  generalize (b.getD (i + 0) 0).toNat = b0 at h0 ⊢
  generalize (b.getD (i + 1) 0).toNat = b1 at h1 ⊢
  generalize (b.getD (i + 2) 0).toNat = b2 at h2 ⊢
  generalize (b.getD (i + 3) 0).toNat = b3 at h3 ⊢
  have hshift : ∀ {n k : ℕ}, n < 256 → k < 32 → n * 2 ^ k < 2 ^ 32 →
      (BitVec.ofNat 32 n <<< (k % 32)).toNat = n <<< k := by
    intro n k hn hk hlt
    rw [Nat.mod_eq_of_lt hk, BitVec.toNat_shiftLeft, BitVec.toNat_ofNat, Nat.mod_eq_of_lt (by omega : n < 2 ^ 32),
      Nat.shiftLeft_eq, Nat.mod_eq_of_lt hlt]
  apply BitVec.eq_of_toNat_eq
  rw [BitVec.toNat_or, BitVec.toNat_or, BitVec.toNat_or, hshift h0 (by decide) (by omega), hshift h1 (by decide) (by omega),
    hshift h2 (by decide) (by omega), BitVec.toNat_ofNat, BitVec.toNat_ofNat, Nat.mod_eq_of_lt (by omega : b3 < 2 ^ 32),
    bytes_or h1 h2 h3, Nat.mod_eq_of_lt (by omega)]

/-- The elements of an array are words. -/
def Holds (w : Uint32Array) (ws : List Word) : Prop :=
  w.length = 64 ∧ ∀ t < ws.length, load w t = (ws.getD t 0).toNat

theorem load_store {a : Uint32Array} {i : ℕ} (hi : i < a.length) (x : ℤ) (j : ℕ) :
    load (store a i x) j = if j = i then ((bits x).toNat : ℤ) else load a j := by
  rw [load, load, store, List.getD_eq_getElem?_getD, List.getElem?_set, List.getD_eq_getElem?_getD]
  by_cases h : i = j
  · rw [if_pos h, if_pos hi, if_pos h.symm]
    rfl
  · rw [if_neg h, if_neg (Ne.symm h)]

/-- A word stored after the others. -/
theorem Holds.store {w : Uint32Array} {ws : List Word} (h : Holds w ws) (hlt : ws.length < 64) {x : ℤ} {v : Word}
    (hx : bits x = v) : Holds (store w ws.length x) (ws ++ [v]) := by
  refine ⟨by rw [Hash.store, List.length_set, h.1], fun t ht => ?_⟩
  rw [load_store (h.1 ▸ hlt), hx]
  rw [List.length_append, List.length_singleton] at ht
  split_ifs with heq
  · subst heq
    rw [List.getD_append_right _ _ _ _ le_rfl, Nat.sub_self]
    rfl
  · rw [h.2 t (by omega), List.getD_append _ _ _ _ (by omega)]

theorem Holds.bits {w : Uint32Array} {ws : List Word} (h : Holds w ws) {t : ℕ} (ht : t < ws.length) :
    bits (load w t) = ws.getD t 0 := by
  rw [h.2 t ht, bits_toNat]

theorem small_bxor (x y : ℤ) : Small (bxor x y) := small_toInt _

theorem small_bor (x y : ℤ) : Small (bor x y) := small_toInt _

theorem Small.bounds {x : ℤ} (h : Small x) : -4294967296 ≤ x ∧ x ≤ 4294967296 := abs_le.mp h

/-- A sum of four. -/
theorem plus_four {x y z u : ℤ} (hx : Small x) (hy : Small y) (hz : Small z) (hu : Small u) :
    plus (plus (plus x y) z) u = x + y + z + u := by
  have hx := hx.bounds
  have hy := hy.bounds
  have hz := hz.bounds
  have hu := hu.bounds
  have hsmall : ∀ {v : ℤ}, -17179869184 ≤ v → v ≤ 17179869184 → |v| < 2 ^ 53 := by
    intro v hlow hhigh
    rw [abs_lt]
    constructor <;> omega
  rw [plus_eq (hsmall (v := x + y) (by omega) (by omega)), plus_eq (hsmall (v := x + y + z) (by omega) (by omega)),
    plus_eq (hsmall (v := x + y + z + u) (by omega) (by omega))]

theorem length_schedule (block : List UInt8) (k : ℕ) : (Sha256.schedule block k).length = 16 + k := by
  induction k with
  | zero => rw [Sha256.schedule, List.length_map, List.length_range]
  | succ k ih =>
    rw [Sha256.schedule, List.length_append, ih]
    rfl

theorem bits_small0 (x : ℤ) : bits (bxor (bxor (rotr x 7) (rotr x 18)) (ushr x 3)) = Sha256.smallSigma0 (bits x) := by
  rw [bits_bxor, bits_bxor, bits_rotr x (by decide) (by decide), bits_rotr x (by decide) (by decide), bits_ushr]
  rfl

theorem bits_small1 (x : ℤ) : bits (bxor (bxor (rotr x 17) (rotr x 19)) (ushr x 10)) = Sha256.smallSigma1 (bits x) := by
  rw [bits_bxor, bits_bxor, bits_rotr x (by decide) (by decide), bits_rotr x (by decide) (by decide), bits_ushr]
  rfl

/-- The next word of the schedule. -/
theorem holds_extend {w : Uint32Array} {block : List UInt8} {k : ℕ} (hk : k < 48) (h : Holds w (Sha256.schedule block k)) :
    Holds (extend w (16 + k)) (Sha256.schedule block (k + 1)) := by
  have hlen := length_schedule block k
  have hsmall : ∀ t, t < 16 + k → Small (load w t) := by
    intro t ht
    rw [h.2 t (by omega)]
    exact small_toNat _
  have hbits : ∀ t, t < 16 + k → bits (load w t) = (Sha256.schedule block k).getD t 0 := fun t ht => h.bits (by omega)
  have hstored := @Holds.store w _ h (by omega)
  rw [hlen] at hstored
  rw [Sha256.schedule]
  apply hstored
  have h15 : 16 + k - 15 = k + 1 := by omega
  have h2 : 16 + k - 2 = k + 14 := by omega
  have h16 : 16 + k - 16 = k := by omega
  have h7 : 16 + k - 7 = k + 9 := by omega
  rw [h15, h2, h16, h7, plus_four (hsmall k (by omega)) (small_bxor _ _) (hsmall (k + 9) (by omega)) (small_bxor _ _),
    bits_add, bits_add, bits_add, bits_small0, bits_small1, hbits k (by omega), hbits (k + 1) (by omega),
    hbits (k + 9) (by omega), hbits (k + 14) (by omega)]
  ac_rfl

/-- The schedule is the one of the block's words. -/
theorem holds_scheduled {w : Uint32Array} (hw : w.length = 64) {b block : List UInt8} {o : ℕ}
    (hblock : ∀ t < 16, Sha256.wordAt b (o + t * 4) = Sha256.wordAt block (4 * t)) :
    Holds (scheduled w b o) (Sha256.schedule block 48) := by
  have hfirst : ∀ n ≤ 16, Holds ((List.range n).foldl (fun w t => store w t (word b (o + t * 4))) w)
      ((List.range n).map fun t => Sha256.wordAt block (4 * t)) := by
    intro n hn
    induction n with
    | zero => exact ⟨hw, nofun⟩
    | succ n ih =>
      have hnext := @Holds.store _ _ (ih (by omega)) (by simp; omega) _ _
        ((bits_word b (o + n * 4)).trans (hblock n (by omega)))
      rw [List.length_map, List.length_range] at hnext
      rw [List.range_succ, List.foldl_append, List.map_append]
      exact hnext
  have hrest : ∀ k ≤ 48, ∀ w, Holds w (Sha256.schedule block 0) →
      Holds ((List.range' 16 k).foldl extend w) (Sha256.schedule block k) := by
    intro k hk w h
    induction k with
    | zero => exact h
    | succ k ih =>
      rw [List.range'_1_concat, List.foldl_append]
      exact holds_extend (by omega) (ih (by omega))
  have hwords : Holds ((List.range 16).foldl (fun w t => store w t (word b (o + t * 4))) w) (Sha256.schedule block 0) := by
    rw [Sha256.schedule]
    exact hfirst 16 le_rfl
  rw [scheduled]
  exact hrest 48 le_rfl _ hwords

/-- A number stands for a word. -/
structure Follows (x : ℤ) (v : Word) : Prop where
  bits : bits x = v
  small : Small x

/-- The local variables stand for the working variables. -/
structure Tracks (v : Locals) (s : State) : Prop where
  a : Follows v.a s.a
  b : Follows v.bb s.b
  c : Follows v.c s.c
  d : Follows v.d s.d
  e : Follows v.e s.e
  f : Follows v.f s.f
  g : Follows v.g s.g
  h : Follows v.hh s.h

theorem follows_toNat (v : Word) : Follows v.toNat v := ⟨bits_toNat v, small_toNat v⟩

/-- `x | 0` keeps the bits. -/
theorem follows_bor_zero {x : ℤ} {v : Word} (h : bits x = v) : Follows (bor x 0) v := by
  refine ⟨?_, small_bor _ _⟩
  rw [bits_bor, h, bits_zero]
  exact BitVec.or_zero

theorem plus_two {x y : ℤ} (hx : Small x) (hy : Small y) : plus x y = x + y := by
  have hx := hx.bounds
  have hy := hy.bounds
  refine plus_eq (abs_lt.mpr ⟨?_, ?_⟩)
  · norm_num
    omega
  · norm_num
    omega

theorem plus_five {x y z u v : ℤ} (hx : Small x) (hy : Small y) (hz : Small z) (hu : Small u) (hv : Small v) :
    plus (plus (plus (plus x y) z) u) v = x + y + z + u + v := by
  rw [plus_four hx hy hz hu]
  have hx := hx.bounds
  have hy := hy.bounds
  have hz := hz.bounds
  have hu := hu.bounds
  have hv := hv.bounds
  refine plus_eq (abs_lt.mpr ⟨?_, ?_⟩)
  · norm_num
    omega
  · norm_num
    omega

theorem bits_big0 (x : ℤ) : bits (bxor (bxor (rotr x 2) (rotr x 13)) (rotr x 22)) = Sha256.bigSigma0 (bits x) := by
  rw [bits_bxor, bits_bxor, bits_rotr x (by decide) (by decide), bits_rotr x (by decide) (by decide),
    bits_rotr x (by decide) (by decide)]
  rfl

theorem bits_big1 (x : ℤ) : bits (bxor (bxor (rotr x 6) (rotr x 11)) (rotr x 25)) = Sha256.bigSigma1 (bits x) := by
  rw [bits_bxor, bits_bxor, bits_rotr x (by decide) (by decide), bits_rotr x (by decide) (by decide),
    bits_rotr x (by decide) (by decide)]
  rfl

theorem bits_ch (x y z : ℤ) : bits (bxor (band x y) (band (bnot x) z)) = Sha256.ch (bits x) (bits y) (bits z) := by
  rw [bits_bxor, bits_band, bits_band, bits_bnot]
  rfl

theorem bits_maj (x y z : ℤ) :
    bits (bxor (bxor (band x y) (band x z)) (band y z)) = Sha256.maj (bits x) (bits y) (bits z) := by
  rw [bits_bxor, bits_bxor, bits_band, bits_band, bits_band]
  rfl

/-- A round of numbers is a round of words. -/
theorem tracks_round {k w : ℤ} {k' w' : Word} {v : Locals} {s : State} (hk : Follows k k') (hw : Follows w w')
    (h : Tracks v s) : Tracks (round k w v) (Sha256.round k' w' s) := by
  have ht1 : Follows (bor (plus (plus (plus (plus v.hh (bxor (bxor (rotr v.e 6) (rotr v.e 11)) (rotr v.e 25)))
      (bxor (band v.e v.f) (band (bnot v.e) v.g))) k) w) 0)
      (s.h + Sha256.bigSigma1 s.e + Sha256.ch s.e s.f s.g + k' + w') := by
    apply follows_bor_zero
    rw [plus_five h.h.small (small_bxor _ _) (small_bxor _ _) hk.small hw.small, bits_add, bits_add, bits_add, bits_add,
      bits_big1, bits_ch, h.h.bits, h.e.bits, h.f.bits, h.g.bits, hk.bits, hw.bits]
  have ht2 : Follows (bor (plus (bxor (bxor (rotr v.a 2) (rotr v.a 13)) (rotr v.a 22))
      (bxor (bxor (band v.a v.bb) (band v.a v.c)) (band v.bb v.c))) 0)
      (Sha256.bigSigma0 s.a + Sha256.maj s.a s.b s.c) := by
    apply follows_bor_zero
    rw [plus_two (small_bxor _ _) (small_bxor _ _), bits_add, bits_big0, bits_maj, h.a.bits, h.b.bits, h.c.bits]
  refine ⟨?_, h.a, h.b, h.c, ?_, h.e, h.f, h.g⟩
  · apply follows_bor_zero
    rw [plus_two ht1.small ht2.small, bits_add, ht1.bits, ht2.bits]
    rfl
  · apply follows_bor_zero
    rw [plus_two h.d.small ht1.small, bits_add, h.d.bits, ht1.bits]
    rfl

theorem follows_k256 : ∀ t < 64, Follows (load k256 t) (Sha256.constants.getD t 0) := by
  have htable : ∀ t < 64, load k256 t = ((Sha256.constants.getD t 0).toNat : ℤ) := by decide
  intro t ht
  rw [htable t ht]
  exact follows_toNat _

/-- The elements of a hash. -/
def elements (s : State) : Uint32Array := s.words.map fun v => (v.toNat : ℤ)

/-- The rounds of a block. -/
theorem tracks_rounds {w : Uint32Array} {ws : List Word} (hws : ws.length = 64) (hw : Holds w ws) (s : State) :
    Tracks (rounds (elements s) w) (Sha256.rounds ws s) := by
  have hstart : Tracks ⟨load (elements s) 0, load (elements s) 1, load (elements s) 2, load (elements s) 3,
      load (elements s) 4, load (elements s) 5, load (elements s) 6, load (elements s) 7⟩ s :=
    ⟨follows_toNat _, follows_toNat _, follows_toNat _, follows_toNat _, follows_toNat _, follows_toNat _,
      follows_toNat _, follows_toNat _⟩
  rw [rounds, Sha256.rounds]
  refine List.foldl_rel hstart fun t ht v s hvs => ?_
  have ht : t < 64 := List.mem_range.mp ht
  refine tracks_round (follows_k256 t ht) ?_ hvs
  rw [hw.2 t (by omega)]
  exact follows_toNat _

theorem bits_plus_toNat {x : ℤ} {v : Word} (u : Word) (h : Follows x v) :
    (bits (plus u.toNat x)).toNat = (u + v).toNat := by
  rw [plus_two (small_toNat u) h.small, bits_add, bits_toNat, h.bits]

/-- The sums are stored one after another. -/
theorem added_eq (s : State) (v : Locals) {s' : State} (h : Tracks v s') :
    added (elements s) v = elements (Sha256.add s s') := by
  have hsum : added (elements s) v = [((bits (plus s.a.toNat v.a)).toNat : ℤ), ((bits (plus s.b.toNat v.bb)).toNat : ℤ),
      ((bits (plus s.c.toNat v.c)).toNat : ℤ), ((bits (plus s.d.toNat v.d)).toNat : ℤ),
      ((bits (plus s.e.toNat v.e)).toNat : ℤ), ((bits (plus s.f.toNat v.f)).toNat : ℤ),
      ((bits (plus s.g.toNat v.g)).toNat : ℤ), ((bits (plus s.h.toNat v.hh)).toNat : ℤ)] := rfl
  rw [hsum, bits_plus_toNat _ h.a, bits_plus_toNat _ h.b, bits_plus_toNat _ h.c, bits_plus_toNat _ h.d,
    bits_plus_toNat _ h.e, bits_plus_toNat _ h.f, bits_plus_toNat _ h.g, bits_plus_toNat _ h.h]
  rfl

/-- The arrays hold the hash so far. -/
structure Memory.Hashed (m : Memory) (s : State) : Prop where
  h : m.h = elements s
  w : m.w.length = 64

theorem hashBlock_eq (m : Memory) (b : List UInt8) (o : ℕ) :
    hashBlock m b o = ⟨added m.h (rounds m.h (scheduled m.w b o)), scheduled m.w b o⟩ := by
  rw [hashBlock]

/-- A block hashed is a block compressed. -/
theorem hashed_hashBlock {m : Memory} {s : State} (h : m.Hashed s) {b block : List UInt8} {o : ℕ}
    (hblock : ∀ t < 16, Sha256.wordAt b (o + t * 4) = Sha256.wordAt block (4 * t)) :
    (hashBlock m b o).Hashed (Sha256.compress s block) := by
  have hw := holds_scheduled h.w hblock
  have hsum := added_eq s _ (tracks_rounds (length_schedule block 48) hw s)
  have hlength := hw.1
  rw [← h.h] at hsum
  rw [hashBlock_eq, Sha256.compress]
  constructor
  · dsimp only
    exact hsum
  · dsimp only
    exact hlength

/-- The words of a block at an offset. -/
theorem wordAt_slice (b : List UInt8) (o : ℕ) : ∀ t < 16,
    Sha256.wordAt b (o + t * 4) = Sha256.wordAt ((b.drop o).take 64) (4 * t) := by
  intro t ht
  have hbyte : ∀ j < 4, b.getD (o + t * 4 + j) 0 = ((b.drop o).take 64).getD (4 * t + j) 0 := by
    intro j hj
    rw [List.getD_eq_getElem?_getD, List.getD_eq_getElem?_getD, List.getElem?_take, if_pos (by omega), List.getElem?_drop]
    congr 2
    omega
  rw [Sha256.wordAt, Sha256.wordAt]
  dsimp only
  rw [hbyte 0 (by decide), hbyte 1 (by decide), hbyte 2 (by decide), hbyte 3 (by decide)]

/-- The blocks of a text of bytes, one after another. -/
theorem hashed_blocks {m : Memory} {s : State} (h : m.Hashed s) (b : List UInt8) (n : ℕ) :
    ((List.range n).foldl (fun m k => hashBlock m b (64 * k)) m).Hashed
      (((List.range n).map fun k => (b.drop (64 * k)).take 64).foldl Sha256.compress s) := by
  rw [List.foldl_map]
  exact List.foldl_rel h fun k _ m s hms => hashed_hashBlock hms (wordAt_slice b (64 * k))

theorem setAt_append (a b c bs : List UInt8) {i : ℕ} (hi : i = a.length) (hb : bs.length = b.length) :
    setAt (a ++ b ++ c) i bs = a ++ bs ++ c := by
  subst hi
  have hdrop : (a ++ b ++ c).drop (a.length + bs.length) = c := by
    rw [hb, ← List.length_append, List.drop_left]
  rw [setAt, hdrop, List.append_assoc a b c, List.take_left]

theorem length_uint32 (x : ℤ) : (uint32 x).length = 4 := by
  rw [uint32, Sha256.bigEndian, List.length_map, List.length_range]

/-- Eight bytes are two words. -/
theorem bigEndian_eight (n : ℕ) : Sha256.bigEndian 8 n = Sha256.bigEndian 4 (n / 2 ^ 32) ++ Sha256.bigEndian 4 n := by
  have hhigh : ∀ k, (n / 2 ^ 32) >>> k = n >>> (k + 32) := by
    intro k
    rw [Nat.shiftRight_eq_div_pow, Nat.shiftRight_eq_div_pow, Nat.div_div_eq_div_mul, ← Nat.pow_add, Nat.add_comm]
  simp only [Sha256.bigEndian, hhigh]
  rfl

/-- Only a number's last 32 bits are in its word. -/
theorem bigEndian_mod (n : ℕ) : Sha256.bigEndian 4 (n % 2 ^ 32) = Sha256.bigEndian 4 n := by
  rw [Sha256.bigEndian, Sha256.bigEndian]
  refine List.map_congr_left fun i hi => ?_
  have hi : i < 4 := List.mem_range.mp hi
  have hexp : 8 * (4 - 1 - i) ≤ 24 := by omega
  apply UInt8.toNat_inj.mp
  rw [Nat.toUInt8_eq, Nat.toUInt8_eq, UInt8.toNat_ofNat', UInt8.toNat_ofNat', Nat.shiftRight_eq_div_pow,
    Nat.shiftRight_eq_div_pow]
  generalize 8 * (4 - 1 - i) = k at hexp ⊢
  obtain ⟨j, hj⟩ : ∃ j, 32 = k + 8 + j := ⟨24 - k, by omega⟩
  have hpow : 2 ^ 32 = 2 ^ k * (2 ^ 8 * 2 ^ j) := by rw [hj, Nat.pow_add, Nat.pow_add, Nat.mul_assoc]
  rw [hpow, Nat.mod_mul_right_div_self, Nat.mod_mul_right_mod]

/-- The two words of the length. -/
theorem length_words {n : ℕ} (h : n < 2 ^ 50) :
    uint32 ⌊Doubles.double (n / 0x20000000)⌋ ++ uint32 (ushr (Doubles.double (n * 8 : ℤ)).num 0) =
      Sha256.bigEndian 8 (8 * n) := by
  have hhigh : ⌊Doubles.double (n / 0x20000000)⌋ = (n / 0x20000000 : ℕ) := by
    have hdouble : Doubles.double ((n : ℚ) / 0x20000000) = n / 0x20000000 := by
      refine @Doubles.double_eq_self _ n (-29) ?_ (by rw [abs_lt]; constructor <;> omega) (by decide)
      rw [zpow_neg, ← div_eq_mul_inv]
      norm_num
    rw [hdouble]
    exact_mod_cast Rat.floor_natCast_div_natCast n 0x20000000
  have hlow : (Doubles.double (n * 8 : ℤ)).num = (n * 8 : ℕ) := by
    rw [Doubles.double_intCast (by rw [abs_lt]; constructor <;> omega), Rat.num_intCast]
    rfl
  have hbits : ∀ k : ℕ, uint32 k = Sha256.bigEndian 4 k := by
    intro k
    rw [uint32, bits, BitVec.ofInt_natCast, BitVec.toNat_ofNat, bigEndian_mod]
  have hshift : ushr (n * 8 : ℕ) 0 = (n * 8 % 2 ^ 32 : ℕ) := by
    rw [ushr, bits, BitVec.ofInt_natCast, Nat.zero_mod, BitVec.ushiftRight_zero, BitVec.toNat_ofNat]
  have hdiv : 8 * n / 2 ^ 32 = n / 0x20000000 := by omega
  rw [hhigh, hlow, hshift, hbits, hbits, bigEndian_mod, bigEndian_eight, hdiv, Nat.mul_comm n]

/-- The tail is the rest of the bytes, the mark, zeros and the length. -/
theorem tailOf_eq {data : List UInt8} (h : data.length < 2 ^ 50) : tailOf data =
    data.drop (data.length - data.length % 64) ++ 0x80 :: List.replicate (Sha256.zeros data.length) 0 ++
      Sha256.bigEndian 8 (8 * data.length) := by
  obtain ⟨rest, hrest⟩ : ∃ rest, rest = data.drop (data.length - data.length % 64) := ⟨_, rfl⟩
  have hlen : data.length - (data.length - data.length % 64) = rest.length := by rw [hrest, List.length_drop]
  have hmod : rest.length = data.length % 64 := by omega
  obtain ⟨z, hzeros⟩ : ∃ z, z = Sha256.zeros data.length := ⟨_, rfl⟩
  have hz : z = (119 - data.length % 64) % 64 := hzeros
  -- one block where the mark and the length fit behind the rest, two where they do not
  have hsize : (if rest.length < 56 then 64 else 128) = rest.length + 1 + z + 4 + 4 := by
    split_ifs <;> omega
  have hcopy : setAt (List.replicate (rest.length + 1 + z + 4 + 4) 0) 0 rest =
      rest ++ List.replicate 1 0 ++ List.replicate (z + 4 + 4) 0 := by
    have hset := @setAt_append [] (List.replicate rest.length 0) (List.replicate (1 + (z + 4 + 4)) 0) rest 0 rfl (by simp)
    have hsplit : List.replicate (rest.length + 1 + z + 4 + 4) (0 : UInt8) =
        [] ++ List.replicate rest.length 0 ++ List.replicate (1 + (z + 4 + 4)) 0 := by
      rw [List.nil_append, ← List.replicate_add]
      congr 1
      omega
    rw [hsplit, hset, List.replicate_add, List.nil_append, List.append_assoc]
  have hmark : setAt (rest ++ List.replicate 1 0 ++ List.replicate (z + 4 + 4) 0) rest.length [0x80] =
      rest ++ [0x80] ++ List.replicate z 0 ++ List.replicate 4 0 ++ List.replicate 4 0 := by
    rw [setAt_append rest (List.replicate 1 0) _ [0x80] rfl rfl, List.replicate_add, List.replicate_add]
    simp only [List.append_assoc]
  have hlength : ∀ bs : List UInt8, bs.length = 4 →
      (rest ++ [0x80] ++ List.replicate z 0 ++ bs ++ List.replicate 4 0).length = rest.length + 1 + z + 4 + 4 := by
    intro bs hbs
    simp only [List.length_append, List.length_replicate, List.length_singleton, hbs]
  have hfront : (rest ++ [0x80] ++ List.replicate z 0).length = rest.length + 1 + z := by
    simp only [List.length_append, List.length_replicate, List.length_singleton]
  have hfirst : ∀ bs : List UInt8, bs.length = 4 →
      setAt (rest ++ [0x80] ++ List.replicate z 0 ++ List.replicate 4 0 ++ List.replicate 4 0)
        (rest.length + 1 + z + 4 + 4 - 8) bs = rest ++ [0x80] ++ List.replicate z 0 ++ bs ++ List.replicate 4 0 :=
    fun bs hbs => setAt_append _ _ _ _ (by omega) hbs
  have hsecond : ∀ as bs : List UInt8, as.length = 4 → bs.length = 4 →
      setAt (rest ++ [0x80] ++ List.replicate z 0 ++ as ++ List.replicate 4 0) (rest.length + 1 + z + 4 + 4 - 4) bs =
        rest ++ [0x80] ++ List.replicate z 0 ++ as ++ bs := by
    intro as bs has hbs
    have hset := setAt_append (rest ++ [0x80] ++ List.replicate z 0 ++ as) (List.replicate 4 0) [] bs
      (i := rest.length + 1 + z + 4 + 4 - 4) (by rw [List.length_append, hfront, has]; omega) hbs
    rwa [List.append_nil, List.append_nil] at hset
  rw [← length_words h, tailOf, hlen, ← hrest, hsize]
  rw [hcopy, hmark, hlength _ List.length_replicate, hfirst _ (length_uint32 _), hlength _ (length_uint32 _),
    hsecond _ _ (length_uint32 _) (length_uint32 _), ← hzeros]
  simp only [List.append_assoc, List.singleton_append]

/-- Full blocks in front are blocks of the whole. -/
theorem blocks_append {p q : List UInt8} (h : 64 ∣ p.length) :
    Sha256.blocks (p ++ q) = Sha256.blocks p ++ Sha256.blocks q := by
  obtain ⟨k, hk⟩ := h
  have hcount : (p ++ q).length / 64 = k + q.length / 64 := by
    rw [List.length_append, hk]
    omega
  have hcount' : p.length / 64 = k := by omega
  rw [Sha256.blocks, Sha256.blocks, Sha256.blocks, hcount, hcount', List.range_add, List.map_append, List.map_map]
  congr 1
  · refine List.map_congr_left fun i hi => ?_
    have hi : i < k := List.mem_range.mp hi
    rw [List.drop_append_of_le_length (by omega), List.take_append_of_le_length (by rw [List.length_drop]; omega)]
  · refine List.map_congr_left fun i _ => ?_
    have hdrop : 64 * (k + i) = p.length + 64 * i := by omega
    rw [Function.comp_apply, hdrop, ← List.drop_drop, List.drop_left]

theorem hashed_initial : initial.Hashed Sha256.initial := by
  constructor
  · rfl
  · exact List.length_replicate

/-- `scalar` is SHA-256. -/
theorem scalar_eq {data : List UInt8} (h : data.length < 2 ^ 50) : scalar data = Sha256.digest data := by
  obtain ⟨full, hfull⟩ : ∃ full, full = data.length - data.length % 64 := ⟨_, rfl⟩
  have hpadded : Sha256.padded data = data.take full ++ tailOf data := by
    rw [tailOf_eq h, ← hfull, Sha256.padded, ← List.append_assoc, ← List.append_assoc, List.take_append_drop]
  have htake : (data.take full).length = full := by
    rw [List.length_take]
    omega
  have hblocks : Sha256.blocks (data.take full) = (List.range (full / 64)).map fun k => (data.drop (64 * k)).take 64 := by
    rw [Sha256.blocks, htake]
    refine List.map_congr_left fun k hk => ?_
    have hk : k < full / 64 := List.mem_range.mp hk
    rw [List.drop_take, List.take_take, Nat.min_eq_left (by omega)]
  have hhashed := hashed_blocks (hashed_blocks hashed_initial data (full / 64)) (tailOf data) ((tailOf data).length / 64)
  rw [← hblocks] at hhashed
  have hdigest : (blocks data hashBlock initial).Hashed
      ((Sha256.blocks (Sha256.padded data)).foldl Sha256.compress Sha256.initial) := by
    rw [hpadded, blocks_append (by omega), List.foldl_append, blocks]
    exact hfull ▸ hhashed
  rw [scalar, Sha256.digest, hdigest.h, elements, List.flatMap_map]
  refine List.flatMap_congr fun v _ => ?_
  rw [uint32, bits_toNat]

theorem scalar_eq_abc : [0x61, 0x62, 0x63].length < 2 ^ 50 ∧
    scalar [0x61, 0x62, 0x63] = Sha256.digest [0x61, 0x62, 0x63] :=
  ⟨by decide, scalar_eq (by decide)⟩

end Norbital.Std.Hash

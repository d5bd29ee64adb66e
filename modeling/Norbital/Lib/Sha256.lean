import Mathlib.Data.List.Forall2
import Mathlib.Tactic.NormNum

/-!
# SHA-256

The hash of FIPS 180-4 on messages of whole bytes: padding, message schedule, compression
and digest, section by section of the standard.
-/

namespace Sha256

abbrev Word := BitVec 32

def ch (x y z : Word) : Word := (x &&& y) ^^^ (~~~x &&& z)

def maj (x y z : Word) : Word := (x &&& y) ^^^ (x &&& z) ^^^ (y &&& z)

def bigSigma0 (x : Word) : Word := x.rotateRight 2 ^^^ x.rotateRight 13 ^^^ x.rotateRight 22

def bigSigma1 (x : Word) : Word := x.rotateRight 6 ^^^ x.rotateRight 11 ^^^ x.rotateRight 25

def smallSigma0 (x : Word) : Word := x.rotateRight 7 ^^^ x.rotateRight 18 ^^^ (x >>> 3)

def smallSigma1 (x : Word) : Word := x.rotateRight 17 ^^^ x.rotateRight 19 ^^^ (x >>> 10)

def constants : List Word := [
  0x428a2f98, 0x71374491, 0xb5c0fbcf, 0xe9b5dba5, 0x3956c25b, 0x59f111f1, 0x923f82a4, 0xab1c5ed5,
  0xd807aa98, 0x12835b01, 0x243185be, 0x550c7dc3, 0x72be5d74, 0x80deb1fe, 0x9bdc06a7, 0xc19bf174,
  0xe49b69c1, 0xefbe4786, 0x0fc19dc6, 0x240ca1cc, 0x2de92c6f, 0x4a7484aa, 0x5cb0a9dc, 0x76f988da,
  0x983e5152, 0xa831c66d, 0xb00327c8, 0xbf597fc7, 0xc6e00bf3, 0xd5a79147, 0x06ca6351, 0x14292967,
  0x27b70a85, 0x2e1b2138, 0x4d2c6dfc, 0x53380d13, 0x650a7354, 0x766a0abb, 0x81c2c92e, 0x92722c85,
  0xa2bfe8a1, 0xa81a664b, 0xc24b8b70, 0xc76c51a3, 0xd192e819, 0xd6990624, 0xf40e3585, 0x106aa070,
  0x19a4c116, 0x1e376c08, 0x2748774c, 0x34b0bcb5, 0x391c0cb3, 0x4ed8aa4a, 0x5b9cca4f, 0x682e6ff3,
  0x748f82ee, 0x78a5636f, 0x84c87814, 0x8cc70208, 0x90befffa, 0xa4506ceb, 0xbef9a3f7, 0xc67178f2]

/-- The working variables. -/
structure State where
  a : Word
  b : Word
  c : Word
  d : Word
  e : Word
  f : Word
  g : Word
  h : Word
  deriving DecidableEq

def State.words (s : State) : List Word := [s.a, s.b, s.c, s.d, s.e, s.f, s.g, s.h]

def initial : State :=
  ⟨0x6a09e667, 0xbb67ae85, 0x3c6ef372, 0xa54ff53a, 0x510e527f, 0x9b05688c, 0x1f83d9ab, 0x5be0cd19⟩

/-- The first 64 primes. -/
def primes : List ℕ := [
  2, 3, 5, 7, 11, 13, 17, 19, 23, 29, 31, 37, 41, 43, 47, 53,
  59, 61, 67, 71, 73, 79, 83, 89, 97, 101, 103, 107, 109, 113, 127, 131,
  137, 139, 149, 151, 157, 163, 167, 173, 179, 181, 191, 193, 197, 199, 211, 223,
  227, 229, 233, 239, 241, 251, 257, 263, 269, 271, 277, 281, 283, 293, 307, 311]

/-- The first 32 bits of the fraction of a root: `k` is the fraction under some whole part. -/
def IsRootFraction (power p : ℕ) (k : Word) : Prop :=
  ∃ whole < 20, (whole * 2 ^ 32 + k.toNat) ^ power ≤ p * 2 ^ (32 * power) ∧
    p * 2 ^ (32 * power) < (whole * 2 ^ 32 + k.toNat + 1) ^ power

instance (power p : ℕ) (k : Word) : Decidable (IsRootFraction power p k) := inferInstanceAs (Decidable (∃ _ < _, _))

/-- The constants are the fractions of the cube roots of the first 64 primes. -/
theorem constants_roots : List.Forall₂ (IsRootFraction 3) primes constants := by decide

/-- The initial values are the fractions of the square roots of the first eight primes. -/
theorem initial_roots : List.Forall₂ (IsRootFraction 2) (primes.take 8) initial.words := by decide

/-- A number in big-endian bytes. -/
def bigEndian (count n : ℕ) : List UInt8 := (List.range count).map fun i => (n >>> (8 * (count - 1 - i))).toUInt8

/-- The zero bytes of the padding, the fewest that leave eight bytes of the last block. -/
def zeros (n : ℕ) : ℕ := (119 - n % 64) % 64

theorem zeros_le (n : ℕ) : (n + 1 + zeros n) % 64 = 56 ∧ ∀ k, (n + 1 + k) % 64 = 56 → zeros n ≤ k := by
  rw [zeros]
  constructor
  · omega
  · intro k hk
    omega

def padded (m : List UInt8) : List UInt8 := m ++ 0x80 :: List.replicate (zeros m.length) 0 ++ bigEndian 8 (8 * m.length)

def blocks (p : List UInt8) : List (List UInt8) := (List.range (p.length / 64)).map fun i => (p.drop (64 * i)).take 64

/-- A word of a block. -/
def wordAt (b : List UInt8) (i : ℕ) : Word :=
  let byte j := (b.getD (i + j) 0).toNat
  BitVec.ofNat 32 (((byte 0 * 256 + byte 1) * 256 + byte 2) * 256 + byte 3)

/-- The schedule as far as its word `16 + k`. -/
def schedule (block : List UInt8) : ℕ → List Word
  | 0 => (List.range 16).map fun t => wordAt block (4 * t)
  | k + 1 =>
    let w := schedule block k
    w ++ [smallSigma1 (w.getD (k + 14) 0) + w.getD (k + 9) 0 + smallSigma0 (w.getD (k + 1) 0) + w.getD k 0]

def round (k w : Word) (s : State) : State :=
  let t1 := s.h + bigSigma1 s.e + ch s.e s.f s.g + k + w
  let t2 := bigSigma0 s.a + maj s.a s.b s.c
  ⟨t1 + t2, s.a, s.b, s.c, s.d + t1, s.e, s.f, s.g⟩

def add (s t : State) : State := ⟨s.a + t.a, s.b + t.b, s.c + t.c, s.d + t.d, s.e + t.e, s.f + t.f, s.g + t.g, s.h + t.h⟩

/-- The rounds of a block. -/
def rounds (w : List Word) (s : State) : State :=
  (List.range 64).foldl (fun s t => round (constants.getD t 0) (w.getD t 0) s) s

def compress (s : State) (block : List UInt8) : State := add s (rounds (schedule block 48) s)

def digest (m : List UInt8) : List UInt8 :=
  ((blocks (padded m)).foldl compress initial).words.flatMap fun w => bigEndian 4 w.toNat

example : digest [0x61, 0x62, 0x63] =
    [0xba, 0x78, 0x16, 0xbf, 0x8f, 0x01, 0xcf, 0xea, 0x41, 0x41, 0x40, 0xde, 0x5d, 0xae, 0x22, 0x23, 0xb0, 0x03, 0x61, 0xa3,
      0x96, 0x17, 0x7a, 0x9c, 0xb4, 0x10, 0xff, 0x61, 0xf2, 0x00, 0x15, 0xad] := by decide +kernel

end Sha256

import Mathlib.Order.Lattice.Nat
import NyaTerm.Otp.Hash

-- The secure hash standard: how the digests are defined.
namespace NyaTerm.Otp.Fips

-- The least number of zeros that completes the last block.
noncomputable def zeros (blockSize lengthSize length : Nat) : Nat :=
  sInf { k | blockSize ∣ length + 1 + k + lengthSize }

noncomputable def pad (blockSize lengthSize : Nat) (message : List UInt8) : List UInt8 :=
  message ++ [0x80] ++ List.replicate (zeros blockSize lengthSize message.length) 0 ++
    Bytes.toBe lengthSize (message.length * 8)

-- Word `t` of block `i`.
def M (w : Nat) (padded : List UInt8) (i t : Nat) : BitVec w :=
  BitVec.ofNat w (Bytes.ofBe ((padded.drop (i * (2 * w) + t * (w / 8))).take (w / 8)))

section Functions

variable {w : Nat}

def ch (x y z : BitVec w) : BitVec w :=
  (x &&& y) ^^^ (~~~x &&& z)

def parity (x y z : BitVec w) : BitVec w :=
  x ^^^ y ^^^ z

def maj (x y z : BitVec w) : BitVec w :=
  (x &&& y) ^^^ (x &&& z) ^^^ (y &&& z)

end Functions

section Sha1

def sha1F (t : Nat) : BitVec 32 → BitVec 32 → BitVec 32 → BitVec 32 :=
  if t < 20 then ch else if t < 40 then parity else if t < 60 then maj else parity

def sha1K (t : Nat) : BitVec 32 :=
  if t < 20 then 0x5a827999 else if t < 40 then 0x6ed9eba1 else if t < 60 then 0x8f1bbcdc
  else 0xca62c1d6

def sha1W (block : Nat → BitVec 32) (t : Nat) : BitVec 32 :=
  if t < 16 then
    block t
  else
    (sha1W block (t - 3) ^^^ sha1W block (t - 8) ^^^ sha1W block (t - 14) ^^^
      sha1W block (t - 16)).rotateLeft 1
termination_by t

def sha1Rounds (block : Nat → BitVec 32) (s : Sha1State) : (t : Nat) → Sha1State
  | 0 => s
  | t + 1 =>
    let s := sha1Rounds block s t
    let temp := s.a.rotateLeft 5 + sha1F t s.b s.c s.d + s.e + sha1K t + sha1W block t
    ⟨temp, s.a, s.b.rotateLeft 30, s.c, s.d⟩

-- The hash value after so many blocks.
def sha1H (padded : List UInt8) : (blocks : Nat) → Sha1State
  | 0 => ⟨0x67452301, 0xefcdab89, 0x98badcfe, 0x10325476, 0xc3d2e1f0⟩
  | i + 1 => (sha1H padded i).add (sha1Rounds (M 32 padded i) (sha1H padded i) 80)

noncomputable def sha1 (message : List UInt8) : List UInt8 :=
  let padded := pad 64 8 message
  (sha1H padded (padded.length / 64)).bytes

end Sha1

section Sha2

-- The first primes, by trial division: a divisor of `n < 21 ^ 2` or its cofactor is below 21.
def primes : List Nat :=
  (List.range 410).filter fun n =>
    2 ≤ n && (List.range 21).all fun d => d < 2 || n ≤ d || n % d != 0

noncomputable def root (k n : Nat) : Nat :=
  sSup { r | r ^ k ≤ n }

-- The first `w` bits of the fractional part of the `k`-th root of the prime at this place.
noncomputable def fraction (w k t : Nat) : BitVec w :=
  BitVec.ofNat w (root k (primes.getD t 0 * 2 ^ (k * w)))

-- The rotations that the two functions of the family are made of.
structure Sums where
  rounds : Nat
  small0 : Nat × Nat × Nat
  small1 : Nat × Nat × Nat
  large0 : Nat × Nat × Nat
  large1 : Nat × Nat × Nat

variable {w : Nat} (p : Sums)

def large (r : Nat × Nat × Nat) (x : BitVec w) : BitVec w :=
  x.rotateRight r.1 ^^^ x.rotateRight r.2.1 ^^^ x.rotateRight r.2.2

def small (r : Nat × Nat × Nat) (x : BitVec w) : BitVec w :=
  x.rotateRight r.1 ^^^ x.rotateRight r.2.1 ^^^ (x >>> r.2.2)

def W (block : Nat → BitVec w) (t : Nat) : BitVec w :=
  if t < 16 then
    block t
  else
    small p.small1 (W block (t - 2)) + W block (t - 7) + small p.small0 (W block (t - 15)) +
      W block (t - 16)
termination_by t

noncomputable def rounds (block : Nat → BitVec w) (s : Sha2State w) : (t : Nat) → Sha2State w
  | 0 => s
  | t + 1 =>
    let s := rounds block s t
    let t1 := s.h + large p.large1 s.e + ch s.e s.f s.g + fraction w 3 t + W p block t
    let t2 := large p.large0 s.a + maj s.a s.b s.c
    ⟨t1 + t2, s.a, s.b, s.c, s.d + t1, s.e, s.f, s.g⟩

noncomputable def H (w : Nat) (padded : List UInt8) : (blocks : Nat) → Sha2State w
  | 0 => ⟨fraction w 2 0, fraction w 2 1, fraction w 2 2, fraction w 2 3, fraction w 2 4,
      fraction w 2 5, fraction w 2 6, fraction w 2 7⟩
  | i + 1 => (H w padded i).add (rounds p (M w padded i) (H w padded i) p.rounds)

noncomputable def sha2 (w : Nat) (message : List UInt8) : List UInt8 :=
  let padded := pad (2 * w) (w / 4) message
  (H p w padded (padded.length / (2 * w))).bytes

noncomputable def sha256 : List UInt8 → List UInt8 :=
  sha2 ⟨64, (7, 18, 3), (17, 19, 10), (2, 13, 22), (6, 11, 25)⟩ 32

noncomputable def sha512 : List UInt8 → List UInt8 :=
  sha2 ⟨80, (1, 8, 7), (19, 61, 6), (28, 34, 39), (14, 18, 41)⟩ 64

end Sha2

end NyaTerm.Otp.Fips

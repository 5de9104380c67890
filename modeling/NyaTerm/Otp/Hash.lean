import NyaTerm.Lib.Bytes

-- The hash functions of the one-time passwords.
namespace NyaTerm.Otp

-- The message as it is processed: marked at its end, filled up with zeros, and with its length.
def pad (blockSize lengthSize : Nat) (input : List UInt8) : List UInt8 :=
  let bitLen := input.length * 8 % 256 ^ lengthSize
  let padded := input ++ [0x80]
  let size := Bytes.clearBits (padded.length + blockSize) (blockSize - 1) - lengthSize
  Bytes.resize padded size 0 ++ Bytes.toBe lengthSize bitLen

-- `from_be_bytes` of the word at this place of a block.
def word (w : Nat) (chunk : List UInt8) (i : Nat) : BitVec w :=
  BitVec.ofNat w (Bytes.ofBe ((chunk.drop (i * (w / 8))).take (w / 8)))

-- The words of a block, followed by those that are computed from the ones before.
def words {w : Nat} (rounds : Nat) (next : List (BitVec w) → Nat → BitVec w)
    (chunk : List UInt8) : List (BitVec w) :=
  let words := List.replicate rounds 0
  let words := Bytes.fill (fun _ i => word w chunk i) 0 16 words
  Bytes.fill next 16 (rounds - 16) words

structure Sha1State where
  a : BitVec 32
  b : BitVec 32
  c : BitVec 32
  d : BitVec 32
  e : BitVec 32
  deriving DecidableEq

namespace Sha1State

def initial : Sha1State :=
  ⟨0x67452301, 0xEFCDAB89, 0x98BADCFE, 0x10325476, 0xC3D2E1F0⟩

def add (s t : Sha1State) : Sha1State :=
  ⟨s.a + t.a, s.b + t.b, s.c + t.c, s.d + t.d, s.e + t.e⟩

def bytes (s : Sha1State) : List UInt8 :=
  [s.a, s.b, s.c, s.d, s.e].flatMap fun word => Bytes.toBe 4 word.toNat

end Sha1State

def sha1Words (chunk : List UInt8) : List (BitVec 32) :=
  words 80 (fun words i => (words.getD (i - 3) 0 ^^^ words.getD (i - 8) 0 ^^^
    words.getD (i - 14) 0 ^^^ words.getD (i - 16) 0).rotateLeft 1) chunk

def sha1Round (words : List (BitVec 32)) (s : Sha1State) (i : Nat) : Sha1State :=
  let (f, k) : BitVec 32 × BitVec 32 :=
    if i < 20 then ((s.b &&& s.c) ||| (~~~s.b &&& s.d), 0x5A827999)
    else if i < 40 then (s.b ^^^ s.c ^^^ s.d, 0x6ED9EBA1)
    else if i < 60 then ((s.b &&& s.c) ||| (s.b &&& s.d) ||| (s.c &&& s.d), 0x8F1BBCDC)
    else (s.b ^^^ s.c ^^^ s.d, 0xCA62C1D6)
  let temp := s.a.rotateLeft 5 + f + s.e + k + words.getD i 0
  ⟨temp, s.a, s.b.rotateLeft 30, s.c, s.d⟩

def sha1Block (state : Sha1State) (chunk : List UInt8) : Sha1State :=
  state.add ((List.range 80).foldl (sha1Round (sha1Words chunk)) state)

def sha1Padded (padded : List UInt8) : List UInt8 :=
  ((Bytes.chunks 64 padded).foldl sha1Block .initial).bytes

def sha1 (input : List UInt8) : List UInt8 :=
  sha1Padded (pad 64 8 input)

structure Sha2State (w : Nat) where
  a : BitVec w
  b : BitVec w
  c : BitVec w
  d : BitVec w
  e : BitVec w
  f : BitVec w
  g : BitVec w
  h : BitVec w
  deriving DecidableEq

namespace Sha2State

variable {w : Nat}

def add (s t : Sha2State w) : Sha2State w :=
  ⟨s.a + t.a, s.b + t.b, s.c + t.c, s.d + t.d, s.e + t.e, s.f + t.f, s.g + t.g, s.h + t.h⟩

def bytes (s : Sha2State w) : List UInt8 :=
  [s.a, s.b, s.c, s.d, s.e, s.f, s.g, s.h].flatMap fun word => Bytes.toBe (w / 8) word.toNat

end Sha2State

-- What the members of the family do not have in common. The three amounts of each sum are those of
-- its rotations; in the schedule the third one is a shift.
structure Sha2 (w : Nat) where
  rounds : Nat
  small0 : Nat × Nat × Nat
  small1 : Nat × Nat × Nat
  large0 : Nat × Nat × Nat
  large1 : Nat × Nat × Nat
  k : List (BitVec w)
  initial : Sha2State w

namespace Sha2

variable {w : Nat} (p : Sha2 w)

def rotations (x : BitVec w) (by3 : Nat × Nat × Nat) : BitVec w :=
  x.rotateRight by3.1 ^^^ x.rotateRight by3.2.1 ^^^ x.rotateRight by3.2.2

def rotationsShift (x : BitVec w) (by3 : Nat × Nat × Nat) : BitVec w :=
  x.rotateRight by3.1 ^^^ x.rotateRight by3.2.1 ^^^ (x >>> by3.2.2)

def words (chunk : List UInt8) : List (BitVec w) :=
  Otp.words p.rounds (fun words i =>
    let s0 := rotationsShift (words.getD (i - 15) 0) p.small0
    let s1 := rotationsShift (words.getD (i - 2) 0) p.small1
    words.getD (i - 16) 0 + s0 + words.getD (i - 7) 0 + s1) chunk

def round (words : List (BitVec w)) (s : Sha2State w) (i : Nat) : Sha2State w :=
  let s1 := rotations s.e p.large1
  let ch := (s.e &&& s.f) ^^^ (~~~s.e &&& s.g)
  let temp1 := s.h + s1 + ch + p.k.getD i 0 + words.getD i 0
  let s0 := rotations s.a p.large0
  let maj := (s.a &&& s.b) ^^^ (s.a &&& s.c) ^^^ (s.b &&& s.c)
  let temp2 := s0 + maj
  ⟨temp1 + temp2, s.a, s.b, s.c, s.d + temp1, s.e, s.f, s.g⟩

def block (state : Sha2State w) (chunk : List UInt8) : Sha2State w :=
  state.add ((List.range p.rounds).foldl (p.round (p.words chunk)) state)

def hashPadded (padded : List UInt8) : List UInt8 :=
  ((Bytes.chunks (2 * w) padded).foldl p.block p.initial).bytes

end Sha2

def sha256K : List (BitVec 32) :=
  [0x428a2f98, 0x71374491, 0xb5c0fbcf, 0xe9b5dba5, 0x3956c25b, 0x59f111f1, 0x923f82a4,
   0xab1c5ed5, 0xd807aa98, 0x12835b01, 0x243185be, 0x550c7dc3, 0x72be5d74, 0x80deb1fe,
   0x9bdc06a7, 0xc19bf174, 0xe49b69c1, 0xefbe4786, 0x0fc19dc6, 0x240ca1cc, 0x2de92c6f,
   0x4a7484aa, 0x5cb0a9dc, 0x76f988da, 0x983e5152, 0xa831c66d, 0xb00327c8, 0xbf597fc7,
   0xc6e00bf3, 0xd5a79147, 0x06ca6351, 0x14292967, 0x27b70a85, 0x2e1b2138, 0x4d2c6dfc,
   0x53380d13, 0x650a7354, 0x766a0abb, 0x81c2c92e, 0x92722c85, 0xa2bfe8a1, 0xa81a664b,
   0xc24b8b70, 0xc76c51a3, 0xd192e819, 0xd6990624, 0xf40e3585, 0x106aa070, 0x19a4c116,
   0x1e376c08, 0x2748774c, 0x34b0bcb5, 0x391c0cb3, 0x4ed8aa4a, 0x5b9cca4f, 0x682e6ff3,
   0x748f82ee, 0x78a5636f, 0x84c87814, 0x8cc70208, 0x90befffa, 0xa4506ceb, 0xbef9a3f7,
   0xc67178f2]

def sha256Parameters : Sha2 32 where
  rounds := 64
  small0 := (7, 18, 3)
  small1 := (17, 19, 10)
  large0 := (2, 13, 22)
  large1 := (6, 11, 25)
  k := sha256K
  initial := ⟨0x6a09e667, 0xbb67ae85, 0x3c6ef372, 0xa54ff53a, 0x510e527f, 0x9b05688c, 0x1f83d9ab,
    0x5be0cd19⟩

def sha256 (input : List UInt8) : List UInt8 :=
  sha256Parameters.hashPadded (pad 64 8 input)

def sha512K : List (BitVec 64) :=
  [0x428a2f98d728ae22, 0x7137449123ef65cd, 0xb5c0fbcfec4d3b2f, 0xe9b5dba58189dbbc,
   0x3956c25bf348b538, 0x59f111f1b605d019, 0x923f82a4af194f9b, 0xab1c5ed5da6d8118,
   0xd807aa98a3030242, 0x12835b0145706fbe, 0x243185be4ee4b28c, 0x550c7dc3d5ffb4e2,
   0x72be5d74f27b896f, 0x80deb1fe3b1696b1, 0x9bdc06a725c71235, 0xc19bf174cf692694,
   0xe49b69c19ef14ad2, 0xefbe4786384f25e3, 0x0fc19dc68b8cd5b5, 0x240ca1cc77ac9c65,
   0x2de92c6f592b0275, 0x4a7484aa6ea6e483, 0x5cb0a9dcbd41fbd4, 0x76f988da831153b5,
   0x983e5152ee66dfab, 0xa831c66d2db43210, 0xb00327c898fb213f, 0xbf597fc7beef0ee4,
   0xc6e00bf33da88fc2, 0xd5a79147930aa725, 0x06ca6351e003826f, 0x142929670a0e6e70,
   0x27b70a8546d22ffc, 0x2e1b21385c26c926, 0x4d2c6dfc5ac42aed, 0x53380d139d95b3df,
   0x650a73548baf63de, 0x766a0abb3c77b2a8, 0x81c2c92e47edaee6, 0x92722c851482353b,
   0xa2bfe8a14cf10364, 0xa81a664bbc423001, 0xc24b8b70d0f89791, 0xc76c51a30654be30,
   0xd192e819d6ef5218, 0xd69906245565a910, 0xf40e35855771202a, 0x106aa07032bbd1b8,
   0x19a4c116b8d2d0c8, 0x1e376c085141ab53, 0x2748774cdf8eeb99, 0x34b0bcb5e19b48a8,
   0x391c0cb3c5c95a63, 0x4ed8aa4ae3418acb, 0x5b9cca4f7763e373, 0x682e6ff3d6b2b8a3,
   0x748f82ee5defb2fc, 0x78a5636f43172f60, 0x84c87814a1f0ab72, 0x8cc702081a6439ec,
   0x90befffa23631e28, 0xa4506cebde82bde9, 0xbef9a3f7b2c67915, 0xc67178f2e372532b,
   0xca273eceea26619c, 0xd186b8c721c0c207, 0xeada7dd6cde0eb1e, 0xf57d4f7fee6ed178,
   0x06f067aa72176fba, 0x0a637dc5a2c898a6, 0x113f9804bef90dae, 0x1b710b35131c471b,
   0x28db77f523047d84, 0x32caab7b40c72493, 0x3c9ebe0a15c9bebc, 0x431d67c49c100d4c,
   0x4cc5d4becb3e42b6, 0x597f299cfc657e2a, 0x5fcb6fab3ad6faec, 0x6c44198c4a475817]

def sha512Parameters : Sha2 64 where
  rounds := 80
  small0 := (1, 8, 7)
  small1 := (19, 61, 6)
  large0 := (28, 34, 39)
  large1 := (14, 18, 41)
  k := sha512K
  initial := ⟨0x6a09e667f3bcc908, 0xbb67ae8584caa73b, 0x3c6ef372fe94f82b, 0xa54ff53a5f1d36f1,
    0x510e527fade682d1, 0x9b05688c2b3e6c1f, 0x1f83d9abfb41bd6b, 0x5be0cd19137e2179⟩

def sha512 (input : List UInt8) : List UInt8 :=
  sha512Parameters.hashPadded (pad 128 16 input)

end NyaTerm.Otp

import NyaTerm.Otp.Fips

open List

namespace NyaTerm.Otp

-- The lengths at which the mark still fits into the last block, but not the length behind it.
def Overruns (blockSize lengthSize length : Nat) : Prop :=
  blockSize ≤ length % blockSize + lengthSize ∧ length % blockSize + 1 < blockSize

instance {blockSize lengthSize length : Nat} : Decidable (Overruns blockSize lengthSize length) :=
  inferInstanceAs (Decidable (_ ∧ _))

section Padding

variable {length : Nat}

theorem Fips.zeros_dvd (hb : 0 < blockSize) :
    blockSize ∣ length + 1 + Fips.zeros blockSize lengthSize length + lengthSize := by
  refine Nat.sInf_mem (s := { k | blockSize ∣ length + 1 + k + lengthSize })
    ⟨blockSize * (length + 1 + lengthSize) - (length + 1 + lengthSize), length + 1 + lengthSize, ?_⟩
  have := Nat.le_mul_of_pos_left (length + 1 + lengthSize) hb
  omega

theorem Fips.zeros_eq (hk : k < blockSize) (hd : blockSize ∣ length + 1 + k + lengthSize) :
    Fips.zeros blockSize lengthSize length = k := by
  have hz : blockSize ∣ length + 1 + Fips.zeros blockSize lengthSize length + lengthSize :=
    Fips.zeros_dvd (Nat.zero_lt_of_lt hk)
  have hle : Fips.zeros blockSize lengthSize length ≤ k := Nat.sInf_le hd
  have hs : blockSize ∣ k - Fips.zeros blockSize lengthSize length := by
    have := Nat.dvd_sub hd hz
    rwa [show length + 1 + k + lengthSize - (length + 1 + Fips.zeros blockSize lengthSize length +
      lengthSize) = k - Fips.zeros blockSize lengthSize length by omega] at this
  have := Nat.eq_zero_of_dvd_of_lt hs (by omega)
  omega

theorem Fips.length_pad : (Fips.pad blockSize lengthSize message).length =
    message.length + 1 + Fips.zeros blockSize lengthSize message.length + lengthSize := by
  simp only [Fips.pad, length_append, length_singleton, length_replicate,
    Bytes.length_toBe]

-- How long the message becomes before its length is added.
def paddedSize (blockSize lengthSize length : Nat) : Nat :=
  Bytes.clearBits (length + 1 + blockSize) (blockSize - 1) - lengthSize

theorem pad_eq : pad blockSize lengthSize message =
    Bytes.resize (message ++ [0x80]) (paddedSize blockSize lengthSize message.length) 0 ++
      Bytes.toBe lengthSize (message.length * 8) := by
  simp only [pad, paddedSize, length_append, length_singleton, Bytes.toBe_mod]

theorem length_pad : (pad blockSize lengthSize message).length =
    paddedSize blockSize lengthSize message.length + lengthSize := by
  simp [pad_eq]

theorem pad_eq_of_size (h : paddedSize blockSize lengthSize message.length =
    message.length + 1 + Fips.zeros blockSize lengthSize message.length) :
    pad blockSize lengthSize message = Fips.pad blockSize lengthSize message := by
  rw [pad_eq, Fips.pad, h, Bytes.resize_of_le (by simp)]
  simp

theorem paddedSize_two_pow : paddedSize (2 ^ n) lengthSize length =
    length + 1 + 2 ^ n - (length + 1) % 2 ^ n - lengthSize := by
  rw [paddedSize, Bytes.clearBits_two_pow, Nat.add_mod_right]

-- The size is the standard's, except where the length runs over the end of the block: there the
-- buffer is one block short.
theorem paddedSize_eq (h0 : 0 < lengthSize) (hl : lengthSize < 2 ^ n) :
    paddedSize (2 ^ n) lengthSize length +
      (if Overruns (2 ^ n) lengthSize length then 2 ^ n else 0) =
    length + 1 + Fips.zeros (2 ^ n) lengthSize length := by
  have hm := Nat.mod_lt length (Nat.zero_lt_of_lt hl)
  have hq := Nat.div_add_mod length (2 ^ n)
  rw [paddedSize_two_pow]
  generalize 2 ^ n = b at *
  generalize length / b = q at hq
  by_cases he : length % b + 1 = b
  · -- The mark ends a block, and the zeros fill the next one.
    have hs : (length + 1) % b = 0 :=
      Nat.mod_eq_zero_of_dvd ⟨q + 1, by rw [Nat.mul_succ]; omega⟩
    have hz : Fips.zeros b lengthSize length = b - lengthSize :=
      Fips.zeros_eq (by omega) ⟨q + 2, by rw [Nat.mul_add]; omega⟩
    rw [hs, hz, if_neg (by rw [Overruns]; omega)]
    omega
  · have hs : (length + 1) % b = length % b + 1 := by
      rw [Nat.add_mod, Nat.mod_eq_of_lt (a := 1) (by omega), Nat.mod_eq_of_lt (by omega)]
    rw [hs]
    by_cases ho : b ≤ length % b + lengthSize
    · have hz : Fips.zeros b lengthSize length = b + b - lengthSize - (length % b + 1) :=
        Fips.zeros_eq (by omega) ⟨q + 2, by rw [Nat.mul_add]; omega⟩
      rw [hz, if_pos (by rw [Overruns]; omega)]
      omega
    · have hz : Fips.zeros b lengthSize length = b - lengthSize - (length % b + 1) :=
        Fips.zeros_eq (by omega) ⟨q + 1, by rw [Nat.mul_succ]; omega⟩
      rw [hz, if_neg (by rw [Overruns]; omega)]
      omega

theorem pad_eq_iff (h0 : 0 < lengthSize) (hl : lengthSize < 2 ^ n) :
    pad (2 ^ n) lengthSize message = Fips.pad (2 ^ n) lengthSize message ↔
      ¬ Overruns (2 ^ n) lengthSize message.length := by
  have hp : paddedSize (2 ^ n) lengthSize message.length +
      (if Overruns (2 ^ n) lengthSize message.length then 2 ^ n else 0) =
    message.length + 1 + Fips.zeros (2 ^ n) lengthSize message.length := paddedSize_eq h0 hl
  constructor
  · intro he ho
    have := congrArg List.length he
    rw [length_pad, Fips.length_pad] at this
    rw [if_pos ho] at hp
    omega
  · intro ho
    rw [if_neg ho] at hp
    exact pad_eq_of_size hp

end Padding

section Blocks

variable {padded : List UInt8}

theorem foldl_chunks {H : Nat → σ} (hs : 0 < size) (hd : size ∣ padded.length) (h0 : s = H 0)
    (hn : ∀ i, step (H i) ((padded.drop (i * size)).take size) = H (i + 1)) :
    (Bytes.chunks size padded).foldl step s = H (padded.length / size) := by
  rw [Bytes.chunks_eq hs (Nat.div_mul_cancel hd).symm, foldl_map, h0]
  generalize padded.length / size = n
  induction n
  case zero => rfl
  case succ n hi => rw [range_succ, foldl_append, hi, foldl_cons, foldl_nil, hn]

theorem word_eq (hw : 8 ∣ w) (ht : t < 16) :
    word w ((padded.drop (i * (2 * w))).take (2 * w)) t = Fips.M w padded i t := by
  obtain ⟨k, rfl⟩ := hw
  have hk : k ≤ 2 * (8 * k) - t * k := by
    have := Nat.mul_le_mul_right k (Nat.le_pred_of_lt ht)
    simp only [Nat.pred_eq_sub_one] at this
    omega
  rw [word, Fips.M, Nat.mul_div_cancel_left k (by decide), drop_take, take_take,
    drop_drop, Nat.min_eq_left hk]

theorem getD_words {next : List (BitVec w) → Nat → BitVec w} {W : Nat → BitVec w}
    (hr : 16 ≤ rounds) (h0 : ∀ t < 16, word w chunk t = W t)
    (hn : ∀ ws t, 16 ≤ t → (∀ j < t, ws.getD j 0 = W j) → next ws t = W t) :
    ∀ t < rounds, (words rounds next chunk).getD t 0 = W t := by
  have hf : ∀ t < 0 + 16, (Bytes.fill (fun _ i => word w chunk i) 0 16
      (replicate rounds 0)).getD t 0 = word w chunk t :=
    Bytes.getD_fill (by simpa using hr) (fun j hj => absurd hj (Nat.not_lt_zero j))
      fun _ _ _ _ => rfl
  have hs : ∀ t < 16 + (rounds - 16), (words rounds next chunk).getD t 0 = W t :=
    Bytes.getD_fill (by simp; omega) (fun j hj => (hf j (by omega)).trans (h0 j hj)) hn
  intro t ht
  exact hs t (by omega)

end Blocks

section Sha1

theorem or_eq_ch (x y z : BitVec 32) : (x &&& y) ||| (~~~x &&& z) = Fips.ch x y z := by
  ext i hi
  simp only [Fips.ch, BitVec.getElem_or, BitVec.getElem_and, BitVec.getElem_not,
    BitVec.getElem_xor]
  cases x[i] <;> cases y[i] <;> cases z[i] <;> rfl

theorem or_eq_maj (x y z : BitVec 32) :
    (x &&& y) ||| (x &&& z) ||| (y &&& z) = Fips.maj x y z := by
  ext i hi
  simp only [Fips.maj, BitVec.getElem_or, BitVec.getElem_and, BitVec.getElem_xor]
  cases x[i] <;> cases y[i] <;> cases z[i] <;> rfl

variable {words : List (BitVec 32)}

theorem sha1Round_eq (s : Sha1State) (h : words.getD t 0 = Fips.sha1W block t) :
    sha1Round words s t = ⟨s.a.rotateLeft 5 + Fips.sha1F t s.b s.c s.d + s.e + Fips.sha1K t +
      Fips.sha1W block t, s.a, s.b.rotateLeft 30, s.c, s.d⟩ := by
  rw [sha1Round, h, Fips.sha1F, Fips.sha1K, or_eq_ch, or_eq_maj]
  split_ifs <;> rfl

theorem getD_sha1Words (h : ∀ t < 16, word 32 chunk t = block t) :
    ∀ t < 80, (sha1Words chunk).getD t 0 = Fips.sha1W block t := by
  refine getD_words (by decide) ?_ ?_
  · intro t ht
    rw [h t ht, Fips.sha1W, if_pos ht]
  · intro ws t ht hb
    rw [hb (t - 3) (by omega), hb (t - 8) (by omega), hb (t - 14) (by omega),
      hb (t - 16) (by omega)]
    conv_rhs => rw [Fips.sha1W, if_neg (by omega)]

theorem sha1Block_eq (s : Sha1State) (h : ∀ t < 16, word 32 chunk t = block t) :
    sha1Block s chunk = s.add (Fips.sha1Rounds block s 80) := by
  have hr : ∀ n ≤ 80, (List.range n).foldl (sha1Round (sha1Words chunk)) s =
      Fips.sha1Rounds block s n := by
    intro n hn
    induction n
    case zero => rfl
    case succ n hi =>
      rw [range_succ, foldl_append, hi (by omega), foldl_cons, foldl_nil,
        sha1Round_eq _ (getD_sha1Words h n (by omega)), Fips.sha1Rounds]
  rw [sha1Block, hr 80 le_rfl]

theorem sha1Padded_eq (h : 64 ∣ padded.length) :
    sha1Padded padded = (Fips.sha1H padded (padded.length / 64)).bytes := by
  refine congrArg Sha1State.bytes (foldl_chunks (by decide) h rfl ?_)
  intro i
  rw [Fips.sha1H, sha1Block_eq]
  intro t ht
  exact word_eq (by decide) ht

theorem Fips.sha1_eq (message : List UInt8) :
    Fips.sha1 message = sha1Padded (Fips.pad 64 8 message) := by
  refine (sha1Padded_eq ?_).symm
  rw [Fips.length_pad]
  exact Fips.zeros_dvd (by decide)

end Sha1

section Sha2

-- The parameters are those of the standard.
structure Sha2.Standard {w : Nat} (p : Sha2 w) (sums : Fips.Sums) : Prop where
  width : 8 ∣ w
  positive : 0 < w
  rounds : p.rounds = sums.rounds
  schedule : 16 ≤ sums.rounds
  small0 : p.small0 = sums.small0
  small1 : p.small1 = sums.small1
  large0 : p.large0 = sums.large0
  large1 : p.large1 = sums.large1
  k : ∀ t < sums.rounds, p.k.getD t 0 = Fips.fraction w 3 t
  initial : p.initial = Fips.H sums w [] 0

namespace Sha2.Standard

variable {p : Sha2 w} (hp : p.Standard sums)
variable {words : List (BitVec w)}
include hp

theorem round (ht : t < sums.rounds) (h : words.getD t 0 = Fips.W sums M t)
    (hs : s = Fips.rounds sums M s₀ t) : p.round words s t = Fips.rounds sums M s₀ (t + 1) := by
  subst hs
  rw [Sha2.round, h, hp.k t ht, hp.large0, hp.large1]
  rfl

theorem getD_words (h : ∀ t < 16, word w chunk t = M t) :
    ∀ t < sums.rounds, (p.words chunk).getD t 0 = Fips.W sums M t := by
  rw [Sha2.words, hp.rounds, hp.small0, hp.small1]
  refine Otp.getD_words hp.schedule ?_ ?_
  · intro t ht
    rw [h t ht, Fips.W, if_pos ht]
  · intro ws t ht hb
    simp only [hb (t - 2) (by omega), hb (t - 7) (by omega), hb (t - 15) (by omega),
      hb (t - 16) (by omega)]
    conv_rhs => rw [Fips.W, if_neg (by omega)]
    simp only [Sha2.rotationsShift, Fips.small]
    ac_rfl

theorem block (s : Sha2State w) (h : ∀ t < 16, word w chunk t = M t) :
    p.block s chunk = s.add (Fips.rounds sums M s sums.rounds) := by
  have hr : ∀ n ≤ sums.rounds, (List.range n).foldl (p.round (p.words chunk)) s =
      Fips.rounds sums M s n := by
    intro n hn
    induction n
    case zero => rfl
    case succ n hi =>
      rw [range_succ, foldl_append, foldl_cons, foldl_nil]
      exact hp.round (by omega) (hp.getD_words h n (by omega)) (hi (by omega))
  rw [Sha2.block, hp.rounds, hr _ le_rfl]

theorem hashPadded (h : 2 * w ∣ padded.length) :
    p.hashPadded padded = (Fips.H sums w padded (padded.length / (2 * w))).bytes := by
  have := hp.positive
  refine congrArg Sha2State.bytes (foldl_chunks (by omega) h hp.initial ?_)
  intro i
  rw [Fips.H, hp.block]
  intro t ht
  exact word_eq hp.width ht

theorem sha2 (message : List UInt8) :
    Fips.sha2 sums w message = p.hashPadded (Fips.pad (2 * w) (w / 4) message) := by
  have := hp.positive
  refine (hp.hashPadded ?_).symm
  rw [Fips.length_pad]
  exact Fips.zeros_dvd (by omega)

end Sha2.Standard

theorem Fips.root_eq (hr : r ^ k ≤ n) (hs : n < (r + 1) ^ k) : Fips.root k n = r := by
  have hu : ∀ s ∈ { s | s ^ k ≤ n }, s ≤ r := by
    intro s h
    exact Nat.le_of_lt_succ (lt_of_pow_lt_pow_left₀ k (Nat.zero_le _) (lt_of_le_of_lt h hs))
  exact le_antisymm (csSup_le ⟨r, hr⟩ hu) (le_csSup ⟨r, hu⟩ hr)

theorem Fips.primes_eq : Fips.primes = [2, 3, 5, 7, 11, 13, 17, 19, 23, 29, 31, 37, 41, 43, 47, 53,
    59, 61, 67, 71, 73, 79, 83, 89, 97, 101, 103, 107, 109, 113, 127, 131, 137, 139, 149, 151, 157,
    163, 167, 173, 179, 181, 191, 193, 197, 199, 211, 223, 227, 229, 233, 239, 241, 251, 257, 263,
    269, 271, 277, 281, 283, 293, 307, 311, 313, 317, 331, 337, 347, 349, 353, 359, 367, 373, 379,
    383, 389, 397, 401, 409] := by
  decide +kernel

-- The number consists of the first bits behind the point of the root of `n`.
def IsFraction (w k n : Nat) (x : BitVec w) : Prop :=
  ∃ q < 8, (q * 2 ^ w + x.toNat) ^ k ≤ n * 2 ^ (k * w) ∧
    n * 2 ^ (k * w) < (q * 2 ^ w + x.toNat + 1) ^ k

instance {w k n : Nat} {x : BitVec w} : Decidable (IsFraction w k n x) :=
  inferInstanceAs (Decidable (∃ q < 8, _ ∧ _))

theorem IsFraction.eq {x : BitVec w} (h : IsFraction w k (Fips.primes.getD t 0) x) :
    x = Fips.fraction w k t := by
  obtain ⟨q, -, hl, hu⟩ := h
  apply BitVec.eq_of_toNat_eq
  rw [Fips.fraction, Fips.root_eq hl hu, BitVec.toNat_ofNat, Nat.mul_add_mod_self_right,
    Nat.mod_eq_of_lt x.isLt]

theorem Sha2State.eq_initial {s : Sha2State w}
    (h : ∀ t < 8, IsFraction w 2 (Fips.primes.getD t 0) ([s.a, s.b, s.c, s.d, s.e, s.f, s.g, s.h].getD t 0)) :
    s = Fips.H sums w [] 0 := by
  cases s
  rw [Fips.H, ← (h 0 (by decide)).eq, ← (h 1 (by decide)).eq, ← (h 2 (by decide)).eq,
    ← (h 3 (by decide)).eq, ← (h 4 (by decide)).eq, ← (h 5 (by decide)).eq,
    ← (h 6 (by decide)).eq, ← (h 7 (by decide)).eq]
  rfl

theorem standard_sha256 : sha256Parameters.Standard
    ⟨64, (7, 18, 3), (17, 19, 10), (2, 13, 22), (6, 11, 25)⟩ where
  width := by decide
  positive := by decide
  rounds := rfl
  schedule := by decide
  small0 := rfl
  small1 := rfl
  large0 := rfl
  large1 := rfl
  k := by
    have h : ∀ t < 64, IsFraction 32 3 (Fips.primes.getD t 0) (sha256K.getD t 0) := by
      rw [Fips.primes_eq]
      decide +kernel
    exact fun t ht => (h t ht).eq
  initial := by
    apply Sha2State.eq_initial
    rw [Fips.primes_eq]
    decide +kernel

theorem standard_sha512 : sha512Parameters.Standard
    ⟨80, (1, 8, 7), (19, 61, 6), (28, 34, 39), (14, 18, 41)⟩ where
  width := by decide
  positive := by decide
  rounds := rfl
  schedule := by decide
  small0 := rfl
  small1 := rfl
  large0 := rfl
  large1 := rfl
  k := by
    have h : ∀ t < 80, IsFraction 64 3 (Fips.primes.getD t 0) (sha512K.getD t 0) := by
      rw [Fips.primes_eq]
      decide +kernel
    exact fun t ht => (h t ht).eq
  initial := by
    apply Sha2State.eq_initial
    rw [Fips.primes_eq]
    decide +kernel

theorem Fips.sha256_eq (message : List UInt8) :
    Fips.sha256 message = sha256Parameters.hashPadded (Fips.pad 64 8 message) :=
  standard_sha256.sha2 message

theorem Fips.sha512_eq (message : List UInt8) :
    Fips.sha512 message = sha512Parameters.hashPadded (Fips.pad 128 16 message) :=
  standard_sha512.sha2 message

end Sha2

theorem pad_eq_64 :
    pad 64 8 message = Fips.pad 64 8 message ↔ ¬ Overruns 64 8 message.length :=
  pad_eq_iff (n := 6) (by decide) (by decide)

theorem pad_eq_128 :
    pad 128 16 message = Fips.pad 128 16 message ↔ ¬ Overruns 128 16 message.length :=
  pad_eq_iff (n := 7) (by decide) (by decide)

theorem sha1_eq (h : ¬ Overruns 64 8 message.length) : sha1 message = Fips.sha1 message := by
  rw [sha1, pad_eq_64.mpr h, Fips.sha1_eq]

theorem sha256_eq (h : ¬ Overruns 64 8 message.length) :
    sha256 message = Fips.sha256 message := by
  rw [sha256, pad_eq_64.mpr h, Fips.sha256_eq]

theorem sha512_eq (h : ¬ Overruns 128 16 message.length) :
    sha512 message = Fips.sha512 message := by
  rw [sha512, pad_eq_128.mpr h, Fips.sha512_eq]

-- Which messages are padded by the standard: all but those whose length runs over the end of a
-- block. The others have their standard digests.
theorem digests_are_standard (message : List UInt8) :
    (pad 64 8 message = Fips.pad 64 8 message ↔ ¬ Overruns 64 8 message.length) ∧
    (pad 128 16 message = Fips.pad 128 16 message ↔ ¬ Overruns 128 16 message.length) ∧
    (¬ Overruns 64 8 message.length →
      sha1 message = Fips.sha1 message ∧ sha256 message = Fips.sha256 message) ∧
    (¬ Overruns 128 16 message.length → sha512 message = Fips.sha512 message) := by
  exact ⟨pad_eq_64, pad_eq_128, fun h => ⟨sha1_eq h, sha256_eq h⟩, sha512_eq⟩

theorem digests_are_standard_abc :
    Fips.sha1 [0x61, 0x62, 0x63] = [0xa9, 0x99, 0x3e, 0x36, 0x47, 0x06, 0x81, 0x6a, 0xba, 0x3e,
      0x25, 0x71, 0x78, 0x50, 0xc2, 0x6c, 0x9c, 0xd0, 0xd8, 0x9d] ∧
    sha256 [0x61, 0x62, 0x63] = Fips.sha256 [0x61, 0x62, 0x63] ∧
    sha512 [0x61, 0x62, 0x63] = Fips.sha512 [0x61, 0x62, 0x63] := by
  obtain ⟨-, -, h64, h128⟩ := digests_are_standard [0x61, 0x62, 0x63]
  refine ⟨?_, (h64 (by decide)).2, h128 (by decide)⟩
  rw [← (h64 (by decide)).1]
  decide +kernel

-- Messages that differ in their last byte only can have the same digest, for this byte is dropped.
theorem digests_drop_bytes :
    sha1 (replicate 56 0) ≠ Fips.sha1 (replicate 56 0) ∧
    sha256 (replicate 56 0) ≠ Fips.sha256 (replicate 56 0) ∧
    sha512 (replicate 112 0) ≠ Fips.sha512 (replicate 112 0) ∧
    (∀ x y, pad 64 8 (replicate 56 0 ++ [x]) = pad 64 8 (replicate 56 0 ++ [y])) := by
  have h64 : Fips.pad 64 8 (replicate 56 0) = replicate 56 0 ++ [0x80] ++
      replicate 63 0 ++ Bytes.toBe 8 448 := by
    rw [Fips.pad, Fips.zeros_eq (k := 63) (by decide) (by decide), length_replicate]
  have h128 : Fips.pad 128 16 (replicate 112 0) = replicate 112 0 ++ [0x80] ++
      replicate 127 0 ++ Bytes.toBe 16 896 := by
    rw [Fips.pad, Fips.zeros_eq (k := 127) (by decide) (by decide), length_replicate]
  refine ⟨?_, ?_, ?_, ?_⟩
  · rw [Fips.sha1_eq, h64]
    decide +kernel
  · rw [Fips.sha256_eq, h64]
    decide +kernel
  · rw [Fips.sha512_eq, h128]
    decide +kernel
  · intro x y
    have hs : paddedSize 64 8 57 = 56 := by decide
    simp only [pad_eq, length_append, length_replicate, length_singleton, hs,
      Bytes.resize, append_assoc]
    rfl

end NyaTerm.Otp

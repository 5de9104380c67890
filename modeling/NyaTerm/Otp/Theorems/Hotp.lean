import NyaTerm.Otp.Hotp
import NyaTerm.Otp.Theorems.Hash

open List

namespace NyaTerm.Otp

-- What the standards call a keyed hash and a one-time password.
namespace Rfc

noncomputable def hash : Algorithm → List UInt8 → List UInt8
  | .sha1 => Fips.sha1
  | .sha256 => Fips.sha256
  | .sha512 => Fips.sha512

-- The length of the blocks that the hash function works on.
def B : Algorithm → Nat
  | .sha1 => 64
  | .sha256 => 64
  | .sha512 => 128

noncomputable def hmac (alg : Algorithm) (key text : List UInt8) : List UInt8 :=
  let K := if B alg < key.length then hash alg key else key
  let pad (byte : UInt8) :=
    zipWith (· ^^^ ·) (K ++ replicate (B alg - K.length) 0) (replicate (B alg) byte)
  hash alg (pad 0x5c ++ hash alg (pad 0x36 ++ text))

-- The last 31 bits of the four bytes at the place that the last byte names.
def truncate (bytes : List UInt8) : Nat :=
  Bytes.ofBe ((bytes.drop ((bytes.getLastD 0).toNat % 16)).take 4) % 2147483648

noncomputable def hotp (alg : Algorithm) (key : List UInt8) (counter digits : Nat) : Nat :=
  truncate (hmac alg key (Bytes.toBe 8 counter)) % Nat.pow 10 digits

end Rfc

theorem length_words (k : Nat) (words : List (BitVec w)) :
    (words.flatMap fun word => Bytes.toBe k word.toNat).length = words.length * k := by
  simp [length_flatMap]

namespace Algorithm

variable (alg : Algorithm)

def digestSize : Algorithm → Nat
  | sha1 => 20
  | sha256 => 32
  | sha512 => 64

theorem length_hashBytes (message : List UInt8) :
    (alg.hashBytes message).length = alg.digestSize := by
  cases alg <;> exact length_words _ _

-- The messages of a keyed hash are one block and a counter or a digest.
theorem hashBytes_eq
    (h : message.length = alg.blockSize + 8 ∨ message.length = alg.blockSize + alg.digestSize) :
    alg.hashBytes message = Rfc.hash alg message := by
  cases alg
  case sha1 => exact sha1_eq (by rcases h with h | h <;> rw [h] <;> decide)
  case sha256 => exact sha256_eq (by rcases h with h | h <;> rw [h] <;> decide)
  case sha512 => exact sha512_eq (by rcases h with h | h <;> rw [h] <;> decide)

theorem blockSize_eq : alg.blockSize = Rfc.B alg := by
  cases alg <;> rfl

theorem hmac_eq (hk : key.length ≤ alg.blockSize) (counter : Nat) :
    hmac alg key (Bytes.toBe 8 counter) = Rfc.hmac alg key (Bytes.toBe 8 counter) := by
  have hp (byte : UInt8) : (Bytes.resize key alg.blockSize 0).map (· ^^^ byte) =
      zipWith (· ^^^ ·) (key ++ replicate (Rfc.B alg - key.length) 0)
        (replicate (Rfc.B alg) byte) := by
    rw [Bytes.resize_of_le hk, ← blockSize_eq]
    exact ext_getElem (by simp; omega) (fun _ _ _ => by
      rw [getElem_map, getElem_zipWith, getElem_replicate])
  have hl (byte : UInt8) :
      ((Bytes.resize key alg.blockSize 0).map (· ^^^ byte)).length = alg.blockSize := by
    simp
  rw [hmac, Rfc.hmac, if_neg (by omega), if_neg (by rw [← blockSize_eq]; omega)]
  simp only [← hp]
  rw [hashBytes_eq, hashBytes_eq]
  · simp
  · simp [length_hashBytes]

end Algorithm

theorem truncate_bytes (a b c d : UInt8) :
    (a.toNat &&& 0x7f) <<< 24 ||| b.toNat <<< 16 ||| c.toNat <<< 8 ||| d.toNat =
      Bytes.ofBe [a, b, c, d] % 2147483648 := by
  have hb := b.toNat_lt
  have hc := c.toNat_lt
  have hd := d.toNat_lt
  rw [Nat.or_assoc, Nat.or_assoc, ← Nat.shiftLeft_add_eq_or_of_lt (i := 8) (by omega),
    ← Nat.shiftLeft_add_eq_or_of_lt (i := 16) (by simp only [Nat.shiftLeft_eq]; omega),
    ← Nat.shiftLeft_add_eq_or_of_lt (i := 24) (by simp only [Nat.shiftLeft_eq]; omega),
    show 0x7f = 2 ^ 7 - 1 from rfl, Nat.and_two_pow_sub_one_eq_mod]
  simp only [Nat.shiftLeft_eq, Bytes.ofBe, foldl_cons, foldl_nil]
  omega

-- The digests are long enough for every place that a byte names.
theorem Hotp.generateAt_eq (hotp : Hotp) (counter : Nat) : hotp.generateAt counter =
    if Nat.pow 10 hotp.digits < 4294967296 then
      some (Rfc.truncate (hmac hotp.alg hotp.secret (Bytes.toBe 8 counter)) %
        Nat.pow 10 hotp.digits)
    else none := by
  rw [generateAt]
  generalize hr : hmac hotp.alg hotp.secret (Bytes.toBe 8 counter) = bytes
  have hl : 20 ≤ bytes.length := by
    rw [← hr, hmac, Algorithm.length_hashBytes]
    cases hotp.alg <;> decide
  obtain ⟨last, he⟩ : ∃ last, bytes.getLast? = some last :=
    Option.ne_none_iff_exists'.mp (by rintro h; simp_all)
  have ho : last.toNat &&& 0x0f = last.toNat % 16 := Nat.and_two_pow_sub_one_eq_mod _ 4
  generalize hi : last.toNat % 16 = i at ho
  have hn : 4 ≤ (bytes.drop i).length := by
    rw [length_drop]
    omega
  rcases hd : bytes.drop i with _ | ⟨a, _ | ⟨b, _ | ⟨c, _ | ⟨d, rest⟩⟩⟩⟩
  iterate 4 simp [hd] at hn
  have hx (k : Nat) : bytes[i + k]? = (a :: b :: c :: d :: rest)[k]? := by
    rw [← hd, getElem?_drop]
  have h0 : bytes[i]? = some a := hx 0
  simp only [he, ho, h0, hx, Option.bind_eq_bind, Option.bind_some]
  have ht : Rfc.truncate bytes = Bytes.ofBe [a, b, c, d] % 2147483648 := by
    rw [Rfc.truncate, getLastD_eq_getLast?, he, Option.getD_some, hi, hd]
    rfl
  rw [ht, ← truncate_bytes]
  rfl

theorem Hotp.pow_digits_lt (hotp : Hotp) : Nat.pow 10 hotp.digits < 4294967296 ↔ hotp.digits ≤ 9 := by
  constructor
  case mp =>
    intro h
    by_contra hn
    have := Nat.pow_le_pow_right (n := 10) (by decide) (show 10 ≤ hotp.digits by omega)
    exact absurd (Nat.lt_of_le_of_lt this h) (by decide)
  case mpr =>
    intro h
    exact Nat.lt_of_le_of_lt (Nat.pow_le_pow_right (n := 10) (by decide) h) (by decide)

theorem codes_are_standard (hotp : Hotp) (hs : hotp.secret.length ≤ Rfc.B hotp.alg)
    (hd : hotp.digits ≤ 9) :
    (∀ counter, hotp.generateAt counter =
      some (Rfc.hotp hotp.alg hotp.secret counter hotp.digits)) ∧
    ∀ period timestampSecs, 0 < period → Totp.generateAt ⟨period, hotp⟩ timestampSecs =
      some (Rfc.hotp hotp.alg hotp.secret (timestampSecs / period) hotp.digits) := by
  have hg (counter : Nat) :
      hotp.generateAt counter = some (Rfc.hotp hotp.alg hotp.secret counter hotp.digits) := by
    rw [hotp.generateAt_eq, if_pos (hotp.pow_digits_lt.mpr hd), Algorithm.hmac_eq, Rfc.hotp]
    rwa [Algorithm.blockSize_eq]
  refine ⟨hg, fun period timestampSecs hp => ?_⟩
  rw [Totp.generateAt, if_neg (Nat.ne_of_gt hp), hg]

-- The first value of the standard's own list.
theorem codes_are_standard_first : Rfc.hotp .sha1 [0x31, 0x32, 0x33, 0x34, 0x35, 0x36, 0x37, 0x38,
    0x39, 0x30, 0x31, 0x32, 0x33, 0x34, 0x35, 0x36, 0x37, 0x38, 0x39, 0x30] 0 6 = 755224 := by
  have h := (codes_are_standard ⟨.sha1, [], [], 6, 0, [0x31, 0x32, 0x33, 0x34, 0x35, 0x36, 0x37,
    0x38, 0x39, 0x30, 0x31, 0x32, 0x33, 0x34, 0x35, 0x36, 0x37, 0x38, 0x39, 0x30]⟩ (by decide)
    (by decide)).2 30 0 (by decide)
  exact Option.some.inj (h.symm.trans (by decide +kernel))

end NyaTerm.Otp

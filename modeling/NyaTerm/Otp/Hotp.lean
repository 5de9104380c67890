import NyaTerm.Otp.Hash

-- One-time passwords, computed from a secret and a counter or the time.
namespace NyaTerm.Otp

inductive Algorithm where
  | sha1
  | sha256
  | sha512
  deriving DecidableEq

namespace Algorithm

def hashBytes : Algorithm → List UInt8 → List UInt8
  | sha1 => Otp.sha1
  | sha256 => Otp.sha256
  | sha512 => Otp.sha512

def blockSize : Algorithm → Nat
  | sha1 | sha256 => 64
  | sha512 => 128

end Algorithm

def hmac (alg : Algorithm) (key message : List UInt8) : List UInt8 :=
  let keyBlock :=
    Bytes.resize (if alg.blockSize < key.length then alg.hashBytes key else key) alg.blockSize 0
  let innerKeyPad := keyBlock.map (· ^^^ 0x36)
  let outerKeyPad := keyBlock.map (· ^^^ 0x5c)
  alg.hashBytes (outerKeyPad ++ alg.hashBytes (innerKeyPad ++ message))

structure Hotp where
  alg : Algorithm
  issuer : List Char
  label : List Char
  digits : Nat
  counter : Nat
  secret : List UInt8
  deriving DecidableEq

-- Nothing if the code panics: an index is out of range, or the power of ten overflows.
def Hotp.generateAt (hotp : Hotp) (counter : Nat) : Option Nat := do
  let hmacResult := hmac hotp.alg hotp.secret (Bytes.toBe 8 counter)
  let offset := (← hmacResult.getLast?).toNat &&& 0x0f
  let code := ((← hmacResult[offset]?).toNat &&& 0x7f) <<< 24 |||
    (← hmacResult[offset + 1]?).toNat <<< 16 ||| (← hmacResult[offset + 2]?).toNat <<< 8 |||
    (← hmacResult[offset + 3]?).toNat
  if Nat.pow 10 hotp.digits < 4294967296 then some (code % Nat.pow 10 hotp.digits) else none

structure Totp where
  period : Nat
  hotp : Hotp
  deriving DecidableEq

-- Nothing if the code panics, as it also does when it divides by zero.
def Totp.generateAt (totp : Totp) (timestampSecs : Nat) : Option Nat :=
  if totp.period = 0 then none else totp.hotp.generateAt (timestampSecs / totp.period)

end NyaTerm.Otp

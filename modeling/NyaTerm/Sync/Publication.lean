import NyaTerm.Sync.Platform

namespace NyaTerm

structure PublicationId where
  writer : Uuid
  sequence : UInt64
  hash : List Char
  deriving DecidableEq

namespace PublicationId

def writersPath : List Char := "sync/v5/writers/".toList

def suffix : List Char := ".bin".toList

def path (id : PublicationId) : List Char :=
  writersPath ++ (id.writer.toText ++ '/' :: (Nat.toDigits 10 id.sequence.toNat ++
    '-' :: (id.hash ++ suffix)))

-- `str::parse`: decimal digits, also behind a plus sign and with leading zeros.
def parseU64 (cs : List Char) : Option UInt64 :=
  let digits := if cs.head? = some '+' then cs.tail else cs
  let value := Nat.ofDigitChars 10 digits 0
  if digits ≠ [] ∧ digits.all Char.isDigit ∧ value < 2 ^ 64 then some (.ofNat value) else none

def stripSuffix (text cs : List Char) : Option (List Char) :=
  if text <:+ cs then some (cs.take (cs.length - text.length)) else none

structure Valid (id : PublicationId) : Prop where
  writer : id.writer ≠ Uuid.nil
  sequence : 0 < id.sequence
  length : id.hash.length = 64
  hex : id.hash.all Text.isHex

instance (id : PublicationId) : Decidable id.Valid :=
  decidable_of_iff (id.writer ≠ Uuid.nil ∧ 0 < id.sequence ∧ id.hash.length = 64 ∧
    id.hash.all Text.isHex) ⟨fun ⟨h₁, h₂, h₃, h₄⟩ => ⟨h₁, h₂, h₃, h₄⟩, fun ⟨h₁, h₂, h₃, h₄⟩ =>
      ⟨h₁, h₂, h₃, h₄⟩⟩

-- The parts of a path, before they are checked.
def split (path : List Char) : Option PublicationId := do
  let tail ← Text.stripLiteral writersPath path
  let (writer, file) ← Text.splitOnce '/' tail
  let (sequence, hash) ← Text.splitOnce '-' (← stripSuffix suffix file)
  return ⟨← Uuid.parse writer, ← parseU64 sequence, hash⟩

def parse (path : List Char) : Option PublicationId :=
  (split path).filter fun id => id.Valid ∧ id.path = path

end PublicationId

end NyaTerm

import NyaTerm.Lib.Causal
import NyaTerm.Sync.Schema

open Std

namespace NyaTerm

abbrev Uuid := BitVec 128

namespace Uuid

def nil : Uuid := 0

def hex (u : Uuid) : List Char :=
  Text.toHex 32 u.toNat

-- The positions of the hyphens split the digits into groups of 8, 4, 4, 4 and 12.
def hyphenate (cs : List Char) : List Char :=
  cs.take 8 ++ '-' :: ((cs.drop 8).take 4 ++ '-' :: ((cs.drop 12).take 4 ++
    '-' :: ((cs.drop 16).take 4 ++ '-' :: cs.drop 20)))

def toText (u : Uuid) : List Char :=
  hyphenate u.hex

def parseSimple (cs : List Char) : Option Uuid :=
  (Text.ofHex (cs.map Char.toLower)).map (BitVec.ofNat 128)

def unhyphenate (cs : List Char) : List Char :=
  cs.take 8 ++ ((cs.drop 9).take 4 ++ ((cs.drop 14).take 4 ++ ((cs.drop 19).take 4 ++ cs.drop 24)))

def parseHyphenated (cs : List Char) : Option Uuid :=
  if hyphenate (unhyphenate cs) = cs then parseSimple (unhyphenate cs) else none

-- `Uuid::parse_str`: plain digits, or the hyphenated form alone, in braces or as a URN.
def parse (cs : List Char) : Option Uuid :=
  match cs.length with
  | 32 => parseSimple cs
  | 36 => parseHyphenated cs
  | 38 => if cs.head? = some '\x7b' ∧ cs.getLast? = some '\x7d' then
      parseHyphenated (cs.drop 1).dropLast
    else
      none
  | 45 => (Text.stripLiteral "urn:uuid:".toList cs).bind parseHyphenated
  | _ => none

theorem unhyphenate_hyphenate (h : cs.length = 32) : unhyphenate (hyphenate cs) = cs := by
  have hd (n : Nat) : (cs.drop n).take 4 ++ cs.drop (n + 4) = cs.drop n := by
    rw [← List.drop_drop, List.take_append_drop]
  simp [unhyphenate, hyphenate, List.drop_append, List.drop_take, h]
  rw [hd 16, hd 12, hd 8, List.take_append_drop]

theorem length_hyphenate (h : cs.length = 32) : (hyphenate cs).length = 36 := by
  simp [hyphenate, h]

theorem toLower_hexDigit : ∀ n < 16, (Text.hexDigit n).toLower = Text.hexDigit n := by decide

theorem map_toLower_toHex (w n : Nat) : (Text.toHex w n).map Char.toLower = Text.toHex w n := by
  induction w generalizing n
  case zero => rfl
  case succ w hi => simp [Text.toHex, hi, toLower_hexDigit _ (Nat.mod_lt n (by decide))]

theorem parseSimple_hex (u : Uuid) : parseSimple u.hex = some u := by
  have hn : Text.ofHex (Text.toHex 32 u.toNat) = some u.toNat :=
    Text.ofHex_toHex 32 _ (by simpa using u.isLt)
  simp [parseSimple, hex, map_toLower_toHex, hn]

theorem parse_toText (u : Uuid) : parse u.toText = some u := by
  have hl : u.hex.length = 32 := Text.length_toHex 32 _
  rw [parse, toText, length_hyphenate hl]
  simp [parseHyphenated, unhyphenate_hyphenate hl, parseSimple_hex]

end Uuid

-- What a register holds: the engine only writes strings and rejects everything else it reads.
inductive ScalarValue
  | str (s : String)
  | other
  deriving DecidableEq

abbrev Document := Causal.Document Uuid String ScalarValue

-- How an operation identity is shown: its counter and its author's bytes in hexadecimal.
def operationText (i : Causal.OpId Uuid) : String :=
  toString i.counter ++ "@" ++ String.ofList i.actor.hex

-- The services of other crates. SHA-256 in hexadecimal digits tells the two booleans apart;
-- documents are saved to an opaque form that reads back as the document; the projection of the
-- default AI settings is data.
class Platform where
  sha256 : List UInt8 → List Char
  sha256_hex (bytes : List UInt8) : (sha256 bytes).length = 64 ∧ ∀ c ∈ sha256 bytes, Text.isHex c
  sha256_bool : sha256 (SyncValue.bool true).bytes ≠ sha256 (SyncValue.bool false).bytes
  Saved : Type
  save : Document → Saved
  loadDocument : Saved → Option Document
  loadDocument_save (d : Document) : loadDocument (save d) = some d
  defaultAiValues : SyncValues

-- A platform to evaluate the engine on: SHA-256 of the booleans and of two short strings, all other
-- digests being zero, and documents saved as they are. A saved document that is none is damaged.
namespace Platform

def sampleSha256 (bytes : List UInt8) : Nat :=
  if bytes = (SyncValue.bool true).bytes then
    0xb5bea41b6c623f7c09f1bf24dcae58ebab3c0cdd90ad966bc43a45b44867e12b
  else if bytes = (SyncValue.bool false).bytes then
    0xfcbcf165908dd18a9e49f7ff27810176db8e9f63b4352213741664245224f8aa
  else if bytes = (SyncValue.new (.string "a")).bytes then
    0xac8d8342bbb2362d13f0a559a3621bb407011368895164b628a54f7fc33fc43c
  else if bytes = (SyncValue.new (.string "b")).bytes then
    0xc100f95c1913f9c72fc1f4ef0847e1e723ffe0bde0b36e5f36c13f81fe8c26ed
  else
    0

@[reducible]
def sample : Platform where
  sha256 bytes := Text.toHex 64 (sampleSha256 bytes)
  sha256_hex bytes := ⟨Text.length_toHex _ _, Text.isHex_toHex _ _⟩
  sha256_bool h := absurd (Text.toHex_injective (by decide) (by decide) h) (by decide)
  Saved := Option Document
  save := some
  loadDocument := id
  loadDocument_save _ := rfl
  defaultAiValues := ∅

end Platform

variable [Platform]

def digest (bytes : List UInt8) : String :=
  String.ofList (Platform.sha256 bytes)

theorem digest_hex (bytes : List UInt8) :
    (digest bytes).toList.length = 64 ∧ ∀ c ∈ (digest bytes).toList, Text.isHex c := by
  simpa [digest] using Platform.sha256_hex bytes

theorem digest_bool (h : digest (SyncValue.bool b).bytes = digest (SyncValue.bool c).bytes) :
    b = c := by
  have hs := String.ofList_injective h
  cases b <;> cases c
  · rfl
  · exact absurd hs.symm Platform.sha256_bool
  · exact absurd hs Platform.sha256_bool
  · rfl

end NyaTerm

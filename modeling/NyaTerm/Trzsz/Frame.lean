import Mathlib.Data.List.Basic

-- The frames of the trzsz protocol and the configuration that a peer announces.
namespace NyaTerm.Trzsz

inductive Payload
  | integer (value : Int)
  | encodedBytes (bytes : List UInt8)
  | raw (text : String)
  -- A portion of one modern DATA frame.
  | dataChunk (bytes : List UInt8) (last : Bool)
  deriving DecidableEq

structure Frame where
  frameType : String
  payload : Payload
  deriving DecidableEq

-- `eq_ignore_ascii_case`, for a name in capitals.
def Frame.is (frame : Frame) (name : String) : Bool :=
  frame.frameType.toList.map Char.toUpper = name.toList

structure Config where
  binary : Bool
  directory : Bool
  protocol : Option Int
  maxBufSize : Option Int
  compress : Option Int
  escapeChars : List (String × String)
  deriving DecidableEq

namespace Config

-- The configuration of an engine that no peer has configured.
def localDefault : Config where
  binary := false
  directory := false
  protocol := none
  maxBufSize := some (10 * 1024 * 1024)
  compress := none
  escapeChars := []

def version (config : Config) : Int :=
  config.protocol.getD 0

-- A byte and the code that stands for it after the leader 238.
def escapeEntry (mapping : String × String) : Option (Nat × Nat) :=
  match mapping.1.toList, mapping.2.toList with
  | [byte], [leader, code] =>
    if byte.toNat ≤ 255 ∧ leader.toNat = 238 ∧ code.toNat ≤ 255 then some (byte.toNat, code.toNat)
    else none
  | _, _ => none

def addEscape (table : List (Nat × Nat)) (mapping : String × String) :
    Except String (List (Nat × Nat)) :=
  match escapeEntry mapping with
  | none => .error "invalid trzsz escape table"
  | some entry =>
    if table.any (fun other => other.1 = entry.1 || other.2 = entry.2) then
      .error "duplicate trzsz escape mapping"
    else
      .ok (table ++ [entry])

def escapeTable (config : Config) : Except String (List (Nat × Nat)) :=
  config.escapeChars.foldlM addEscape []

def validate (config : Config) : Except String Unit :=
  if 0 ≤ config.version ∧ config.version ≤ 4 ∧
      0 ≤ config.compress.getD 0 ∧ config.compress.getD 0 ≤ 2 ∧
      config.maxBufSize.all (fun size => 1024 ≤ size ∧ size ≤ 1024 * 1024 * 1024) then
    config.escapeTable.map fun _ => ()
  else
    .error "unsupported trzsz negotiation"

-- Whether data is compressed, where that is settled without asking the sender.
def compression (config : Config) (size : Int) : Option Bool :=
  if config.version < 3 then
    some (!config.binary)
  else if config.compress.getD 0 = 1 then
    some true
  else if config.compress.getD 0 = 2 then
    some false
  else if size < 512 then
    some false
  else if size < 128 * 1024 then
    some true
  else
    none

end Config

structure SourceFile where
  pathId : Int
  pathName : List String
  isDir : Bool
  archive : Bool
  size : Int
  deriving DecidableEq

namespace SourceFile

def topLevelName (file : SourceFile) : String :=
  file.pathName.head?.getD ""

def fileName (file : SourceFile) : String :=
  file.pathName.getLast?.getD ""

-- The characters that no component of a path may have.
def forbidden : List Char :=
  ['/', '\\', Char.ofNat 0, ':']

def isPart (part : String) : Bool :=
  part ≠ "" ∧ part ≠ "." ∧ part ≠ ".." ∧ part.toList.all fun c => c ∉ forbidden

def isValid (file : SourceFile) : Bool :=
  file.pathName ≠ [] ∧ 0 ≤ file.pathId ∧ 0 ≤ file.size ∧ file.pathName.all isPart

end SourceFile

-- What the transfer takes from elsewhere: decoders, digests and the readers of texts.
class Library where
  Decoder : Type
  newDecoder : Config → (compress : Bool) → Except String Decoder
  -- The pieces of data that are handed over, and whether decoding then fails.
  decode : Decoder → (bytes : List UInt8) → (finish : Bool) → List (List UInt8) × Except String Decoder
  md5 : List UInt8 → List UInt8
  md5_ne_nil (bytes : List UInt8) : md5 bytes ≠ []
  decodeString : List UInt8 → Option (List UInt8)
  readSourceFile : String → Option SourceFile
  readConfig : List UInt8 → Option Config

namespace Library

def utf8 (bytes : List UInt8) : Option String :=
  String.fromUTF8? (ByteArray.mk bytes.toArray)

def toUtf8 (text : String) : List UInt8 :=
  text.toList.flatMap String.utf8EncodeChar

end Library

variable [Library]

def parseSourceFile (source : String) : Option SourceFile :=
  (Library.readSourceFile source).filter SourceFile.isValid

def parseConfigFrame (frame : Frame) : Option Config :=
  match frame.payload with
  | .encodedBytes bytes => if frame.frameType = "CFG" then Library.readConfig bytes else none
  | _ => none

theorem parseSourceFile_valid (h : parseSourceFile source = some file) : file.isValid := by
  rw [parseSourceFile, Option.filter_eq_some_iff] at h
  exact h.2

end NyaTerm.Trzsz

import NyaTerm.Lib.Transducer
import NyaTerm.Trzsz.Archive
import NyaTerm.Trzsz.Detector

-- The filter that takes the frames of a transfer out of the output of a terminal.
namespace NyaTerm.Trzsz

def uploadDataChunkSize : Nat := 256 * 1024

def hash : UInt8 := 35

def dataStart : Bytes := ascii "#DATA:"

def digitsValue (digits : Bytes) : Nat :=
  digits.foldl (fun n b => 10 * n + (b.toNat - 48)) 0

-- `parse::<i64>`, on digits.
def parseInteger (digits : Bytes) : Option Int :=
  if digits ≠ [] ∧ digitsValue digits < 0x8000000000000000 then some (digitsValue digits) else none

def trimEnd (line : Bytes) (endings : Bytes) : Bytes :=
  if ∃ b ∈ line.getLast?, b ∈ endings then line.dropLast else line

def trimProtocolLineEnding (line : Bytes) : Bytes :=
  trimEnd (trimEnd line [newline]) [13, 33]

def shouldParseIntegerFrame (frameType : String) : Bool :=
  String.ofList (frameType.toList.map Char.toUpper) ∈ ["NUM", "SIZE", "DATA", "SUCC"]

section Parse

variable [Library]

def parsePayload (frameType : String) (bytes : Bytes) (text : String) : Payload :=
  match (if shouldParseIntegerFrame frameType && bytes.all isDigit then parseInteger bytes else none) with
  | some value => .integer value
  | none =>
    match Library.decodeString bytes with
    | some decoded => .encodedBytes decoded
    | none => .raw text

def parseProtocolFrame (line : Bytes) : Option Frame :=
  let line := trimProtocolLineEnding line
  if ¬ [hash] <+: line then
    none
  else
    match line.findIdx? (· = colon) with
    | none => none
    | some index =>
      if index ≤ 1 then
        none
      else
        (Library.utf8 ((line.take index).drop 1)).bind fun frameType =>
          (Library.utf8 (line.drop (index + 1))).map fun text =>
            ⟨frameType, parsePayload frameType (line.drop (index + 1)) text⟩

end Parse

structure ProtocolStream where
  pendingLine : Bytes
  binaryBytesRemaining : Nat
  binaryData : Bytes
  binaryStreaming : Bool
  textStreaming : Bool
  modern : Bool
  binary : Bool
  deriving DecidableEq

-- What is added to the output, in order: a byte that passes, a frame, a count of one consumed byte.
inductive Filtered
  | passthrough (byte : UInt8)
  | frame (frame : Frame)
  | consumed
  deriving DecidableEq

structure FilteredOutput where
  passthrough : Bytes
  frames : List Frame
  consumedBinaryBytes : Nat
  deriving DecidableEq

namespace Filtered

def byte? : Filtered → Option UInt8
  | .passthrough byte => some byte
  | _ => none

def frame? : Filtered → Option Frame
  | .frame found => some found
  | _ => none

end Filtered

def FilteredOutput.of (output : List Filtered) : FilteredOutput where
  passthrough := output.filterMap Filtered.byte?
  frames := output.filterMap Filtered.frame?
  consumedBinaryBytes := output.count .consumed

namespace ProtocolStream

def new : ProtocolStream :=
  ⟨[], 0, [], false, false, false, false⟩

def failure : Filtered :=
  .frame ⟨"fail", .encodedBytes (ascii "trzsz frame exceeds limit")⟩

abbrev Outcome := Transducer.Outcome ProtocolStream Filtered

variable (stream : ProtocolStream)

def binaryByte (byte : UInt8) : Outcome :=
  let remaining := stream.binaryBytesRemaining - 1
  let bytes := stream.binaryData ++ [byte]
  let last : Bool := remaining = 0
  if last || stream.modern && uploadDataChunkSize ≤ bytes.length then
    let payload :=
      if stream.binaryStreaming || !last then .dataChunk bytes last else .encodedBytes bytes
    ⟨[.consumed, .frame ⟨"DATA", payload⟩],
      { stream with binaryBytesRemaining := remaining, binaryData := [], binaryStreaming := !last },
      false⟩
  else
    ⟨[.consumed], { stream with binaryBytesRemaining := remaining, binaryData := bytes }, false⟩

-- A long line of text data is handed over in chunks. The last two bytes may belong to its end.
def emitText (byte : UInt8) : List Filtered × ProtocolStream :=
  let textData := stream.modern && !stream.binary &&
    (stream.textStreaming || dataStart.isPrefixOf stream.pendingLine)
  if textData && byte ≠ newline && uploadDataChunkSize + 8 ≤ stream.pendingLine.length then
    let start := if stream.textStreaming then 0 else 6
    let kept := stream.pendingLine.length - 2
    ([.frame ⟨"DATA", .dataChunk ((stream.pendingLine.take kept).drop start) false⟩],
      { stream with pendingLine := stream.pendingLine.drop kept, textStreaming := true })
  else
    ([], stream)

def binaryLimit : Nat :=
  if stream.modern then 1024 * 1024 * 1024 else 64 * 1024 * 1024

-- The length of the binary data that follow a frame.
def dataLength (frame : Frame) : Option Int :=
  match frame.payload with
  | .integer length => if frame.is "DATA" ∧ 0 < length then some length else none
  | _ => none

section Lines

variable [Library] (lossy : Bytes → String)

def lineFrame (line : Bytes) : Option Frame :=
  if stream.textStreaming then
    some ⟨"DATA", .dataChunk (trimProtocolLineEnding line) true⟩
  else if stream.modern && dataStart.isPrefixOf line then
    let value := (trimProtocolLineEnding line).drop 6
    if stream.binary && value.all isDigit && !value.isEmpty then
      (parseInteger value).map fun length => ⟨"DATA", .integer length⟩
    else
      some ⟨"DATA", .raw (lossy value)⟩
  else
    parseProtocolFrame line

def configure (frame : Frame) : ProtocolStream :=
  match parseConfigFrame frame with
  | none => stream
  | some config => { stream with modern := 2 ≤ config.protocol.getD 0, binary := config.binary }

def acceptFrame (frame : Frame) : Outcome :=
  let stream := stream.configure frame
  match dataLength frame with
  | none => ⟨[.frame frame], stream, false⟩
  | some length =>
    if stream.binaryLimit < length then ⟨[failure], stream, true⟩
    else ⟨[.frame frame], { stream with binaryBytesRemaining := length.toNat }, false⟩

def endLine : Outcome :=
  let line := stream.pendingLine
  let next := { stream with pendingLine := [], textStreaming := false }
  match stream.lineFrame lossy line with
  | none => ⟨line.map .passthrough, next, false⟩
  | some frame => next.acceptFrame frame

def lineByte (byte : UInt8) : Outcome :=
  let pushed := { stream with pendingLine := stream.pendingLine ++ [byte] }
  let emitted := pushed.emitText byte
  if maxProtocolLineLength < emitted.2.pendingLine.length then
    ⟨emitted.1 ++ [failure], { emitted.2 with pendingLine := [] }, true⟩
  else if byte ≠ newline then
    ⟨emitted.1, emitted.2, false⟩
  else
    let ended := emitted.2.endLine lossy
    ⟨emitted.1 ++ ended.output, ended.state, ended.stopped⟩

def filterByte (byte : UInt8) : Outcome :=
  if 0 < stream.binaryBytesRemaining then
    stream.binaryByte byte
  else if stream.pendingLine.isEmpty && !stream.textStreaming && byte ≠ hash then
    ⟨[.passthrough byte], stream, false⟩
  else
    stream.lineByte lossy byte

-- The rest of the data is left where the filter fails.
def filterBytes (data : Bytes) : Outcome :=
  Transducer.run (filterByte · lossy) stream data

def filterTerminalOutput (data : Bytes) : FilteredOutput × ProtocolStream :=
  (.of (stream.filterBytes lossy data).output, (stream.filterBytes lossy data).state)

-- The state after chunks, whether the filter fails in them or not.
def after (chunks : List Bytes) : ProtocolStream :=
  chunks.foldl (fun stream chunk => (stream.filterTerminalOutput lossy chunk).2) stream

-- The output for chunks, up to the first failure.
def filterChunks (chunks : List Bytes) : Outcome :=
  Transducer.feed (filterByte · lossy) stream chunks

end Lines

end ProtocolStream

end NyaTerm.Trzsz

import NyaTerm.Trzsz.Frame

namespace NyaTerm.Trzsz

inductive DownloadEvent
  | fileCount (count : Int)
  | fileName (name : String)
  | filePath (name : String) (pathId : Int) (components : List String)
  | directory (name : String) (pathId : Int) (components : List String)
  | fileSize (name : String) (size : Int)
  | data (name : String) (bytes : List UInt8) (received size : Int)
  | fileFinished (name : String) (digest : List UInt8)
  | completed (names : List String)
  deriving DecidableEq

def DownloadEvent.isCompleted : DownloadEvent → Bool
  | .completed _ => true
  | _ => false

-- The end of a line.
def newline : UInt8 := 10

def maxProtocolLineLength : Nat := 1024 * 1024

-- An archive is a sequence of headers, each on a line, and of the bytes of the files they announce.
namespace Archive

-- A file of the archive some bytes of which are still missing.
structure Member where
  file : SourceFile
  received : Nat
  pending : received < file.size

structure Receiver where
  root : SourceFile
  header : List UInt8
  current : Option Member

namespace Receiver

variable [Library]

def new (root : SourceFile) : Receiver :=
  ⟨root, [], none⟩

-- The entry that a header describes, which lies below the root of the archive.
def readHeader (root : SourceFile) (line : List UInt8) : Except String SourceFile :=
  match Library.decodeString line with
  | none => .error "invalid trzsz archive header"
  | some json =>
    match Library.utf8 json with
    | none => .error "invalid trzsz archive name"
    | some text =>
      match parseSourceFile text with
      | none => .error "invalid trzsz archive entry"
      | some file =>
        if file.archive ∨ file.pathId ≠ root.pathId ∨
            file.pathName.length ≤ root.pathName.length ∨
            ¬ root.pathName.isPrefixOf file.pathName ∨ file.size < 0 then
          .error "trzsz archive entry escapes its root"
        else
          .ok file

-- The announcement of an entry, and the member that then waits for bytes.
def openEntry (file : SourceFile) : List DownloadEvent × Option Member :=
  if file.isDir then
    ([.directory file.fileName file.pathId file.pathName], none)
  else if h : 0 < file.size then
    ([.filePath file.fileName file.pathId file.pathName, .fileSize file.fileName file.size],
      some ⟨file, 0, h⟩)
  else
    ([.filePath file.fileName file.pathId file.pathName, .fileSize file.fileName file.size,
      .fileFinished file.fileName []], none)

-- The bytes are no more than the member waits for, so that it is either pending or complete.
def takeBytes (member : Member) (bytes : List UInt8) : List DownloadEvent × Option Member :=
  let received := member.received + bytes.length
  let event := .data member.file.fileName bytes received member.file.size
  if h : received < member.file.size then
    ([event], some ⟨member.file, received, h⟩)
  else
    ([event, .fileFinished member.file.fileName []], none)

-- The number of bytes up to the end of the line, which is included.
def lineLength (bytes : List UInt8) : Nat :=
  match bytes.idxOf? newline with
  | some i => i + 1
  | none => bytes.length

-- Bytes of the member that is open.
def takeMember (receiver : Receiver) (member : Member) (bytes : List UInt8) :
    List DownloadEvent × Receiver × List UInt8 :=
  let length := min bytes.length (member.file.size - member.received).toNat
  let taken := takeBytes member (bytes.take length)
  (taken.1, { receiver with current := taken.2 }, bytes.drop length)

-- Bytes of a header, which may become complete.
def takeHeader (receiver : Receiver) (bytes : List UInt8) :
    List DownloadEvent × Except String (Receiver × List UInt8) :=
  let length := lineLength bytes
  let header := receiver.header ++ bytes.take length
  if receiver.header.length + length > maxProtocolLineLength then
    ([], .error "trzsz archive header too large")
  else if header.getLast? ≠ some newline then
    ([], .ok ({ receiver with header }, bytes.drop length))
  else
    match readHeader receiver.root header.dropLast with
    | .error e => ([], .error e)
    | .ok file =>
      let opened := openEntry file
      (opened.1, .ok ({ receiver with header := [], current := opened.2 }, bytes.drop length))

-- One round of the loop of `push`, which leaves fewer bytes.
def round (receiver : Receiver) (bytes : List UInt8) :
    List DownloadEvent × Except String (Receiver × List UInt8) :=
  match receiver.current with
  | some member =>
    let taken := receiver.takeMember member bytes
    (taken.1, .ok taken.2)
  | none => receiver.takeHeader bytes

-- There are no more rounds than bytes.
def pushRounds : (rounds : Nat) → Receiver → List UInt8 → List DownloadEvent × Except String Receiver
  | 0, receiver, _ => ([], .ok receiver)
  | rounds + 1, receiver, bytes =>
    if bytes = [] then
      ([], .ok receiver)
    else
      match receiver.round bytes with
      | (events, .error e) => (events, .error e)
      | (events, .ok (receiver, rest)) =>
        let later := pushRounds rounds receiver rest
        (events ++ later.1, later.2)

def push (receiver : Receiver) (bytes : List UInt8) : List DownloadEvent × Except String Receiver :=
  receiver.pushRounds bytes.length bytes

def finish (receiver : Receiver) : Except String Unit :=
  if receiver.current.isSome ∨ receiver.header ≠ [] then .error "truncated trzsz archive"
  else .ok ()

end Receiver

end Archive

end NyaTerm.Trzsz

import NyaTerm.Trzsz.Archive

-- The sender of archives: directories are packed with their entries and read as one stream.
namespace NyaTerm.Trzsz

structure UploadSource where
  pathId : Int
  pathName : List String
  isDir : Bool
  size : Int
  perm : Option Nat
  archive : Bool
  deriving DecidableEq

-- What a receiver reads of it.
def UploadSource.file (source : UploadSource) : SourceFile where
  pathId := source.pathId
  pathName := source.pathName
  isDir := source.isDir
  archive := source.archive
  size := source.size

-- The writers of strings and headers.
class ArchiveWriter extends Library where
  encodeString : List UInt8 → List UInt8
  writeSource : UploadSource → List UInt8

namespace Archive

-- An entry with the bytes that its source yields.
structure Entry where
  name : String
  size : Int
  source : Option UploadSource
  content : List UInt8

def Entry.isDir (entry : Entry) : Bool :=
  entry.source.any (·.isDir)

-- A directory that is sent as an archive stands for its entries.
inductive Packed
  | plain (entry : Entry)
  | archive (root : Entry) (entries : List Entry)

-- `checked_add`, on i64.
def checkedAdd (a b : Int) : Option Int :=
  if -0x8000000000000000 ≤ a + b ∧ a + b < 0x8000000000000000 then some (a + b) else none

-- The groups are ordered by their identifier.
def addToGroup (pathId : Int) (entry : Entry) : List (Int × List Entry) → List (Int × List Entry)
  | [] => [(pathId, [entry])]
  | group :: groups =>
    if pathId = group.1 then (group.1, group.2 ++ [entry]) :: groups
    else if pathId < group.1 then (pathId, [entry]) :: group :: groups
    else group :: addToGroup pathId entry groups

def addEntry (state : List (Int × List Entry) × List Packed) (entry : Entry) :
    List (Int × List Entry) × List Packed :=
  match entry.source with
  | some source => (addToGroup source.pathId entry state.1, state.2)
  | none => (state.1, state.2 ++ [.plain entry])

variable [ArchiveWriter]

def header (entry : Entry) : Except String (List UInt8) :=
  match entry.source with
  | none => .error "archive entry missing metadata"
  | some source => .ok (ArchiveWriter.encodeString (ArchiveWriter.writeSource source) ++ [newline])

def addSize (size : Int) (entry : Entry) : Except String Int :=
  (header entry).bind fun line =>
    match (checkedAdd size line.length).bind (checkedAdd · (if entry.isDir then 0 else entry.size)) with
    | none => .error "trzsz archive too large"
    | some size => .ok size

def packGroup (plain : List Packed) (group : Int × List Entry) : Except String (List Packed) :=
  match group.2 with
  | [] => .ok plain
  | root :: entries =>
    if root.isDir ∧ entries ≠ [] then
      (entries.foldlM addSize 0).map fun size =>
        plain ++ [.archive { root with
          size, source := root.source.map fun source => { source with archive := true, size } } entries]
    else
      .ok (plain ++ entries.map .plain ++ [.plain root])

def pack (entries : List Entry) : Except String (List Packed) :=
  let state := entries.foldl addEntry ([], [])
  state.1.foldlM packGroup state.2

structure Reader where
  entries : List Entry
  -- What has not been read of a header and of the source of a file, with the bytes that remain.
  header : List UInt8
  payload : Option (List UInt8 × Int)

namespace Reader

def new (entries : List Entry) : Reader :=
  ⟨entries, [], none⟩

-- The next entry. Its header has a line end at least, so that the loop ends with it.
def readEntry (reader : Reader) (wanted : Nat) : Except String (List UInt8 × Reader) :=
  match reader.entries with
  | [] => .ok ([], { reader with payload := none })
  | entry :: entries =>
    (Archive.header entry).map fun line =>
      let payload := if entry.isDir then none else some (entry.content, entry.size)
      (line.take wanted, ⟨entries, line.drop wanted, payload⟩)

-- A source is ready to return so many bytes, and returns one at least if there is one.
def read (reader : Reader) (wanted ready : Nat) : Except String (List UInt8 × Reader) :=
  if wanted = 0 then
    .ok ([], reader)
  else if reader.header ≠ [] then
    .ok (reader.header.take wanted, { reader with header := reader.header.drop wanted })
  else
    match reader.payload with
    | none => reader.readEntry wanted
    | some (unread, remaining) =>
      if 0 < remaining then
        let bytes := unread.take (min (max 1 ready) (min wanted remaining.toNat))
        if bytes = [] then
          .error "truncated trzsz upload"
        else
          .ok (bytes, { reader with
            payload := some (unread.drop bytes.length, remaining - bytes.length) })
      else
        reader.readEntry wanted

-- Reads into buffers, one after the other.
def drain (reader : Reader) : List (Nat × Nat) → Except String (List UInt8 × Reader)
  | [] => .ok ([], reader)
  | buffer :: buffers =>
    (reader.read buffer.1 buffer.2).bind fun taken =>
      (taken.2.drain buffers).map fun later => (taken.1 ++ later.1, later.2)

end Reader

-- The bytes of an entry in the stream.
def Entry.bytes (entry : Entry) : List UInt8 :=
  (entry.source.elim [] fun source =>
    ArchiveWriter.encodeString (ArchiveWriter.writeSource source) ++ [newline]) ++
    if entry.isDir then [] else entry.content

def stream (entries : List Entry) : List UInt8 :=
  entries.flatMap Entry.bytes

-- What a receiver makes of the events of an archive: the entries that are complete and the one that
-- is open.
structure Gathered where
  complete : List (Bool × List String × List UInt8)
  current : Option (List String × List UInt8)
  deriving DecidableEq

def Gathered.add (gathered : Gathered) : DownloadEvent → Gathered
  | .directory _ _ components => { gathered with complete := gathered.complete ++ [(true, components, [])] }
  | .filePath _ _ components => { gathered with current := some (components, []) }
  | .data _ bytes _ _ =>
    { gathered with current := gathered.current.map fun file => (file.1, file.2 ++ bytes) }
  | .fileFinished _ _ =>
    match gathered.current with
    | none => gathered
    | some file => ⟨gathered.complete ++ [(false, file.1, file.2)], none⟩
  | _ => gathered

def gather (events : List DownloadEvent) : Gathered :=
  events.foldl Gathered.add ⟨[], none⟩

-- An entry as it arrives: its kind, its path and its content.
def Entry.arrived (entry : Entry) : Bool × List String × List UInt8 :=
  (entry.isDir, entry.source.elim [] UploadSource.pathName, if entry.isDir then [] else entry.content)

def Receiver.pushAll (receiver : Receiver) :
    List (List UInt8) → List DownloadEvent × Except String Receiver
  | [] => ([], .ok receiver)
  | chunk :: chunks =>
    match receiver.push chunk with
    | (events, .error e) => (events, .error e)
    | (events, .ok receiver) =>
      let later := receiver.pushAll chunks
      (events ++ later.1, later.2)

-- A source yields as many bytes as it declares.
structure Entry.Exact (entry : Entry) (source : UploadSource) : Prop where
  metadata : entry.source = some source
  size : entry.size = source.size
  content : source.isDir = false → entry.content.length = source.size

-- A receiver of the archive can read the header and accepts the entry.
structure Entry.Readable (root : SourceFile) (source : UploadSource) : Prop where
  line : newline ∉ ArchiveWriter.encodeString (ArchiveWriter.writeSource source)
  short : (ArchiveWriter.encodeString (ArchiveWriter.writeSource source)).length < maxProtocolLineLength
  decoded : (Library.decodeString (ArchiveWriter.encodeString (ArchiveWriter.writeSource source))).bind
    (fun json => (Library.utf8 json).bind Library.readSourceFile) = some source.file
  valid : source.file.isValid = true
  plain : source.archive = false
  pathId : source.pathId = root.pathId
  below : root.pathName <+: source.pathName ∧ root.pathName.length < source.pathName.length

end Archive

end NyaTerm.Trzsz

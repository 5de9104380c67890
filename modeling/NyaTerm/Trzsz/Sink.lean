import Mathlib.Logic.Function.Basic
import NyaTerm.Lib.Text
import NyaTerm.Trzsz.Archive

namespace NyaTerm.Trzsz

abbrev Path := List String

-- The names and paths of the local platform, as far as the sink looks into them.
class LocalPaths where
  separator : Char → Bool
  separator_eq {c : Char} : separator c → c = '/' ∨ c = '\\'
  fileName : String → Option String
  fileStem : String → Option String
  fileExtension : String → Option String
  -- Where a name leads that has a root or a drive, whatever it is joined to.
  anchor : String → Option Path
  fileName_normal {name base : String} : fileName name = some base →
    base ≠ "" ∧ base ≠ "." ∧ base ≠ ".." ∧ ∀ c ∈ base.toList, ¬ separator c
  fileName_subset {name base : String} : fileName name = some base → base.toList ⊆ name.toList
  fileStem_subset {name stem : String} : fileStem name = some stem → stem.toList ⊆ name.toList
  fileExtension_subset {name extension : String} : fileExtension name = some extension →
    extension.toList ⊆ name.toList
  anchor_colon {name : String} : anchor name ≠ none →
    ':' ∈ name.toList ∨ ∃ c ∈ name.toList, separator c
  -- Neither the stem of a plain name nor what is appended to it brings an anchor.
  anchor_stem {name stem : String} : (∀ c ∈ name.toList, ¬ separator c) → anchor name = none →
    fileStem name = some stem → anchor stem = none
  anchor_append {stem : String} (suffix : String) : anchor stem = none →
    anchor (stem ++ " (" ++ suffix) = none

-- The file system and the clock, with whatever else happens to them.
class Host where
  World : Type
  pathExists : World → Path → Bool
  createDirAll : World → Path → Except String World
  -- Opens a file that did not exist.
  createNew : World → Path → Except String World
  createNew_fresh {world world' : World} {path : Path} : createNew world path = .ok world' →
    ¬ pathExists world path
  writeAll : World → Path → List UInt8 → Except String World
  flush : World → Path → Except String World
  millis : World → Nat
  -- The transfer is cancelled.
  stopped : World → Bool

variable [LocalPaths] [Host]

def join (path : Path) (name : String) : Path :=
  (LocalPaths.anchor name).getD (path ++ [name])

def defaultName : String := "trzsz-download"

def sanitizeChar (c : Char) : Char :=
  if c = '/' ∨ c = '\\' ∨ c = Char.ofNat 0 then '_' else c

def sanitize (name : String) : List Char :=
  name.toList.map sanitizeChar

def safeFileName (name : String) : String :=
  let sanitized := sanitize ((LocalPaths.fileName name).getD defaultName)
  if Text.trim sanitized = [] then defaultName else String.ofList sanitized

def safePathComponent (component : String) : String :=
  let sanitized := sanitize component
  let trimmed := Text.trim sanitized
  if trimmed = [] ∨ trimmed = ['.'] ∨ trimmed = ['.', '.'] then defaultName
  else String.ofList sanitized

def stemOf (fileName : String) : String :=
  ((LocalPaths.fileStem fileName).filter (· ≠ "")).getD defaultName

def candidateName (fileName : String) (index : Nat) : String :=
  match LocalPaths.fileExtension fileName with
  | some extension => stemOf fileName ++ " (" ++ (toString index ++ ")." ++ extension)
  | none => stemOf fileName ++ " (" ++ (toString index ++ ")")

def lastResort (world : Host.World) (fileName : String) : String :=
  stemOf fileName ++ " (" ++ (toString (Host.millis world) ++ ")")

def uniqueDownloadPath (world : Host.World) (directory : Path) (fileName : String) : Path :=
  let initial := join directory fileName
  if ¬ Host.pathExists world initial then
    initial
  else
    let candidates := (List.range' 1 9999).map fun index =>
      join directory (candidateName fileName index)
    (candidates.find? fun candidate => ¬ Host.pathExists world candidate).getD
      (join directory (lastResort world fileName))

-- What is done to the file system. A file is opened in a world in which it did not exist.
inductive FileOp
  | createDir (path : Path)
  | createParent (path : Path)
  | createNew (world : Host.World) (path : Path)
  | writeAll (path : Path) (bytes : List UInt8)

structure DownloadFile where
  name : String
  path : Path
  size : Nat

structure Sink where
  directory : Path
  directoryRoots : Int → Option String
  pendingPath : Option (Int × List String)
  currentFile : Option DownloadFile
  world : Host.World
  ops : List FileOp

structure ProgressUpdate where
  fileName : String
  localPath : Path
  bytesTransferred : Nat
  totalBytes : Option Nat
  completed : Bool

inductive Update
  | none
  | progress (update : ProgressUpdate)
  | completed (names : List String)

inductive SinkError
  | cancelled
  | withoutPath
  | notOpen
  | create (path : Path) (error : String)
  | write (path : Path) (error : String)
  | flush (path : Path) (error : String)

namespace Sink

def new (directory : Path) (world : Host.World) : Sink where
  directory := directory
  directoryRoots := fun _ => none
  pendingPath := none
  currentFile := none
  world := world
  ops := []

-- The local name of a root is settled by the first entry below it.
def rootName (sink : Sink) (pathId : Int) (root : String) : String :=
  match sink.directoryRoots pathId with
  | some name => name
  | none =>
    (uniqueDownloadPath sink.world sink.directory (safePathComponent root)).getLast?.getD defaultName

def nestedDownloadPath (sink : Sink) (pathId : Int) (components : List String) :
    Except SinkError (Path × Sink) :=
  match components with
  | [] => .error .withoutPath
  | root :: rest =>
    let name := sink.rootName pathId root
    let path := (rest.map safePathComponent).foldl join (join sink.directory name)
    .ok (path, { sink with
      directoryRoots := Function.update sink.directoryRoots pathId (some name) })

def createDir (sink : Sink) (path : Path) : Except SinkError Sink :=
  match Host.createDirAll sink.world path with
  | .error e => .error (.create path e)
  | .ok world => .ok { sink with world, ops := sink.ops ++ [.createDir path] }

-- The directories above a file.
def createParent (sink : Sink) (path : Path) : Except SinkError Sink :=
  if path = [] then
    .ok sink
  else
    match Host.createDirAll sink.world path.dropLast with
    | .error e => .error (.create path.dropLast e)
    | .ok world => .ok { sink with world, ops := sink.ops ++ [.createParent path.dropLast] }

def createFile (sink : Sink) (path : Path) : Except SinkError Sink :=
  match Host.createNew sink.world path with
  | .error e => .error (.create path e)
  | .ok world => .ok { sink with world, ops := sink.ops ++ [.createNew sink.world path] }

def totalBytes (size : Int) : Option Nat :=
  if 0 < size then some size.toNat else none

def filePath (sink : Sink) (safeName : String) : Except SinkError (Path × Sink) :=
  match sink.pendingPath with
  | some (pathId, components) =>
    { sink with pendingPath := none }.nestedDownloadPath pathId components
  | none => .ok (uniqueDownloadPath sink.world sink.directory safeName, sink)

def applyDirectory (sink : Sink) (name : String) (pathId : Int) (components : List String) :
    Except SinkError (Sink × Update) := do
  let (path, sink) ← sink.nestedDownloadPath pathId components
  let sink ← sink.createDir path
  return (sink, .progress ⟨safeFileName name, path, 0, some 0, true⟩)

def applyFileSize (sink : Sink) (name : String) (size : Int) : Except SinkError (Sink × Update) := do
  let safeName := safeFileName name
  let (path, sink) ← sink.filePath safeName
  let sink ← sink.createParent path
  let sink ← sink.createFile path
  return ({ sink with currentFile := some ⟨safeName, path, size.toNat⟩ },
    .progress ⟨safeName, path, 0, totalBytes size, false⟩)

def applyData (sink : Sink) (bytes : List UInt8) (received size : Int) :
    Except SinkError (Sink × Update) :=
  match sink.currentFile with
  | none => .error .notOpen
  | some current =>
    match Host.writeAll sink.world current.path bytes with
    | .error e => .error (.write current.path e)
    | .ok world =>
      .ok ({ sink with world, ops := sink.ops ++ [.writeAll current.path bytes] },
        .progress ⟨current.name, current.path, received.toNat, totalBytes size, false⟩)

-- The members of an archive have no digest of their own, and are not reported as completed.
def applyFinished (sink : Sink) (digest : List UInt8) : Except SinkError (Sink × Update) :=
  match sink.currentFile with
  | none => .ok (sink, .none)
  | some current =>
    match Host.flush sink.world current.path with
    | .error e => .error (.flush current.path e)
    | .ok world =>
      .ok ({ sink with world, currentFile := none },
        .progress ⟨current.name, current.path, current.size, some current.size, digest ≠ []⟩)

def apply (sink : Sink) : DownloadEvent → Except SinkError (Sink × Update)
  | .fileCount _ => .ok (sink, .none)
  | .fileName _ => .ok (sink, .none)
  | .filePath _ pathId components => .ok ({ sink with pendingPath := some (pathId, components) }, .none)
  | .directory name pathId components => sink.applyDirectory name pathId components
  | .fileSize name size => sink.applyFileSize name size
  | .data _ bytes received size => sink.applyData bytes received size
  | .fileFinished _ digest => sink.applyFinished digest
  | .completed names => .ok (sink, .completed names)

end Sink

end NyaTerm.Trzsz

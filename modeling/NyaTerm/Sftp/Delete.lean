import Mathlib.Data.List.DropRight
import NyaTerm.Shell.Quote

-- Deletion of a remote directory: by a command of the server, or entry by entry over SFTP.
namespace NyaTerm.Sftp

abbrev RemotePath := List UInt8

def slash : UInt8 := 47

def dot : UInt8 := 46

def normalizePath (path : RemotePath) : RemotePath :=
  path.rdropWhile (· = slash)

def parts (path : RemotePath) : List (List UInt8) :=
  path.splitOn slash

def isUnsafe (path : RemotePath) : Bool :=
  0 ∈ path ∨ (¬ ∃ part ∈ parts path, part ≠ [] ∧ part ≠ [dot]) ∨ [dot, dot] ∈ parts path

def ensureSafeTarget (path : RemotePath) : Except String Unit :=
  if isUnsafe (normalizePath path) then .error "Refusing to delete unsafe remote path" else .ok ()

def asBytes (text : String) : List UInt8 :=
  text.toUTF8.data.toList

def fromUtf8 (bytes : List UInt8) : Option String :=
  String.fromUTF8? (ByteArray.mk bytes.toArray)

-- Taken only if the server shows paths as they are.
def fastRemoveCommand (isUtf8 : Bool) (display : String) (raw : RemotePath) : Option String :=
  let display := normalizePath (asBytes display)
  if !isUtf8 || normalizePath raw ≠ display || (ensureSafeTarget display).toOption.isNone then
    none
  else
    (fromUtf8 display).map fun path => "rm -rf -- " ++ Shell.shSingleQuote path

structure SftpError where
  notFound : Bool
  message : String
  deriving DecidableEq

def ignoreNotFound : Except SftpError Unit → Except String Unit
  | .ok () => .ok ()
  | .error e => if e.notFound then .ok () else .error e.message

-- The errors that are kept of the removal of one path.
def reported (answer : Except SftpError Unit) : List String :=
  match ignoreNotFound answer with
  | .ok () => []
  | .error e => [e]

structure Entry where
  name : List UInt8
  isDir : Bool
  deriving DecidableEq

structure Inventory where
  files : List RemotePath
  dirs : List RemotePath
  deriving DecidableEq

-- The directories that are still to be listed are a stack.
structure Collection where
  inventory : Inventory
  pending : List RemotePath
  deriving DecidableEq

namespace Collection

def new (root : RemotePath) : Collection :=
  ⟨⟨[], []⟩, [root]⟩

def child (path : RemotePath) (name : List UInt8) : RemotePath :=
  path ++ slash :: name

def addEntry (path : RemotePath) (collection : Collection) (entry : Entry) :
    Except String Collection :=
  if entry.name = [dot] ∨ entry.name = [dot, dot] then
    .ok collection
  else if entry.name = [] ∨ slash ∈ entry.name ∨ 0 ∈ entry.name then
    .error "Invalid remote directory entry during delete"
  else if entry.isDir then
    .ok { collection with pending := child path entry.name :: collection.pending }
  else
    .ok { collection with
      inventory := { collection.inventory with
        files := collection.inventory.files ++ [child path entry.name] } }

-- The listing of a directory that was taken from the stack.
def list (path : RemotePath) (collection : Collection) :
    Except SftpError (List Entry) → Except String Collection
  | .error e => if e.notFound then .ok collection else .error e.message
  | .ok entries =>
    entries.foldlM (addEntry path) { collection with
      inventory := { collection.inventory with dirs := collection.inventory.dirs ++ [path] } }

end Collection

-- A worker takes a file from the queue and then asks for its removal.
inductive Worker
  | idle
  | holding (path : RemotePath)
  | finished
  deriving DecidableEq

structure Removal where
  inventory : Inventory
  queue : List RemotePath
  workers : List Worker
  -- The directories that are still to be removed.
  dirs : List RemotePath
  errors : List String
  deriving DecidableEq

def depth (path : RemotePath) : Nat :=
  path.count slash

-- Directories with more separators come first, others keep their order.
def sortDirs (dirs : List RemotePath) : List RemotePath :=
  dirs.insertionSort fun a b => depth b ≤ depth a

def Removal.new (inventory : Inventory) (workers : Nat) : Removal :=
  ⟨inventory, inventory.files, List.replicate workers .idle, sortDirs inventory.dirs, []⟩

-- What the server is asked to do.
inductive Request
  | removeFile (path : RemotePath)
  | removeDir (path : RemotePath)
  | execute (command : String)
  deriving DecidableEq

inductive Deletion
  | inspecting (target : RemotePath)
  | collecting (collection : Collection)
  | removing (removal : Removal)
  | ended (result : Except String Unit)

def bail (errors : List String) : Except String Unit :=
  if errors = [] then .ok ()
  else .error (toString errors.length ++ " deletion error(s):\n" ++ "\n".intercalate errors)

namespace Deletion

def start (display : String) (raw : RemotePath) : Deletion :=
  match ensureSafeTarget (asBytes (String.ofList (Text.trim display.toList))) with
  | .error e => .ended (.error e)
  | .ok () =>
    match ensureSafeTarget raw with
    | .error e => .ended (.error e)
    | .ok () => .inspecting (normalizePath raw)

-- Each step is one answer of the server, or one move of a worker, with what is asked for in it.
inductive Step (isUtf8 : Bool) (display : String) : Deletion → List Request → Deletion → Prop
  | unavailable {target e} :
    Step isUtf8 display (.inspecting target) [] (.ended (ignoreNotFound (.error e)))
  | file {target} (answer : Except SftpError Unit) :
    Step isUtf8 display (.inspecting target) [.removeFile target] (.ended (ignoreNotFound answer))
  | executed {target command} (h : fastRemoveCommand isUtf8 display target = some command) :
    Step isUtf8 display (.inspecting target) [.execute command] (.ended (.ok ()))
  | fallback {target command} (h : fastRemoveCommand isUtf8 display target = some command) :
    Step isUtf8 display (.inspecting target) [.execute command] (.collecting (.new target))
  | collect {target} (h : fastRemoveCommand isUtf8 display target = none) :
    Step isUtf8 display (.inspecting target) [] (.collecting (.new target))
  | list {inventory path pending collection} (answer : Except SftpError (List Entry))
    (h : Collection.list path ⟨inventory, pending⟩ answer = .ok collection) :
    Step isUtf8 display (.collecting ⟨inventory, path :: pending⟩) [] (.collecting collection)
  | listFailed {inventory path pending e} (answer : Except SftpError (List Entry))
    (h : Collection.list path ⟨inventory, pending⟩ answer = .error e) :
    Step isUtf8 display (.collecting ⟨inventory, path :: pending⟩) [] (.ended (.error e))
  | nothing {inventory} (h : inventory.dirs = []) :
    Step isUtf8 display (.collecting ⟨inventory, []⟩) [] (.ended (.ok ()))
  -- The sessions for the removal cannot be opened.
  | poolFailed {inventory} (e : String) (h : inventory.dirs ≠ []) :
    Step isUtf8 display (.collecting ⟨inventory, []⟩) [] (.ended (.error e))
  -- Any number of workers, if there is work for them.
  | remove {inventory} (workers : Nat) (h : inventory.dirs ≠ [])
    (hw : inventory.files ≠ [] → 0 < workers) :
    Step isUtf8 display (.collecting ⟨inventory, []⟩) [] (.removing (.new inventory workers))
  | take {inventory path queue before after dirs errors} :
    Step isUtf8 display (.removing ⟨inventory, path :: queue, before ++ .idle :: after, dirs, errors⟩) []
      (.removing ⟨inventory, queue, before ++ .holding path :: after, dirs, errors⟩)
  | removeFile {inventory path queue before after dirs errors} (answer : Except SftpError Unit) :
    Step isUtf8 display (.removing ⟨inventory, queue, before ++ .holding path :: after, dirs, errors⟩)
      [.removeFile path]
      (.removing ⟨inventory, queue, before ++ .idle :: after, dirs, errors ++ reported answer⟩)
  | finish {inventory before after dirs errors} :
    Step isUtf8 display (.removing ⟨inventory, [], before ++ .idle :: after, dirs, errors⟩) []
      (.removing ⟨inventory, [], before ++ .finished :: after, dirs, errors⟩)
  -- The directories follow when all workers have finished.
  | removeDir {inventory queue workers path dirs errors} (h : ∀ w ∈ workers, w = .finished)
    (answer : Except SftpError Unit) :
    Step isUtf8 display (.removing ⟨inventory, queue, workers, path :: dirs, errors⟩) [.removeDir path]
      (.removing ⟨inventory, queue, workers, dirs, errors ++ reported answer⟩)
  | done {inventory queue workers errors} (h : ∀ w ∈ workers, w = .finished) :
    Step isUtf8 display (.removing ⟨inventory, queue, workers, [], errors⟩) []
      (.ended (bail (errors ++
        if queue = [] then [] else ["Directory delete workers left unprocessed files"])))

-- The requests so far, in their order.
inductive Reachable (isUtf8 : Bool) (display : String) (raw : RemotePath) :
    Deletion → List Request → Prop
  | start : Reachable isUtf8 display raw (.start display raw) []
  | step {deletion deletion' requests asked} : Reachable isUtf8 display raw deletion requests →
    Step isUtf8 display deletion asked deletion' →
    Reachable isUtf8 display raw deletion' (requests ++ asked)

end Deletion

end NyaTerm.Sftp

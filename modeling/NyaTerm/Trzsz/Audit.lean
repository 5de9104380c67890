import NyaTerm.Trzsz.Worker

-- An auditor that watches a download from outside and knows what was declared, consumed and handed
-- over. It objects as soon as something is reported that the observations do not bear out.
namespace NyaTerm.Trzsz

-- The entry that is being received.
structure Entry where
  archived : Bool
  -- The size that the peer has declared.
  size : Option Int
  -- All bytes that were consumed, and those of them that were not yet handed over.
  content : List UInt8
  unread : List UInt8
  deriving DecidableEq

-- The file into which bytes are handed over.
structure OpenFile where
  size : Int
  written : Int
  deriving DecidableEq

structure Audit where
  latest : Option Frame
  announced : Option Int
  entries : Int
  -- The latest frame has named a directory.
  folder : Bool
  entry : Option Entry
  file : Option OpenFile
  complete : Bool
  deriving DecidableEq

namespace Audit

def new : Audit where
  latest := none
  announced := none
  entries := 0
  folder := false
  entry := none
  file := none
  complete := false

-- A size is declared once for each entry.
def declared (frame : Frame) (entry : Entry) : Entry :=
  match entry.size, frame.payload with
  | none, .integer size => if frame.is "SIZE" then { entry with size := some size } else entry
  | _, _ => entry

def see (audit : Audit) (frame : Frame) : Audit :=
  { audit with latest := some frame, folder := false, entry := audit.entry.map (declared frame) }

-- No more bytes than were declared.
def consume (audit : Audit) (bytes : List UInt8) : Option Audit :=
  match audit.entry with
  | none => none
  | some entry =>
    if entry.size.any fun size => (entry.content.length + bytes.length : Int) ≤ size then
      some { audit with
        entry := some { entry with
          content := entry.content ++ bytes
          unread := entry.unread ++ bytes } }
    else
      none

def afterLine (bytes : List UInt8) : Option (List UInt8) :=
  match bytes.dropWhile (· ≠ newline) with
  | [] => none
  | _ :: rest => some rest

-- An archive announces its next entry on a line, once the file before is complete.
def takeLine (audit : Audit) (entry : Entry) : Option Audit :=
  if entry.archived ∧ audit.file = none then
    (afterLine entry.unread).map fun unread =>
      { audit with entry := some { entry with unread } }
  else
    none

def named (audit : Audit) : Option Audit :=
  match audit.entry with
  | some _ => none
  | none =>
    some { audit with
      entry := some ⟨audit.folder, none, [], []⟩
      entries := if audit.folder then audit.entries else audit.entries + 1 }

def openFile (audit : Audit) (size : Int) : Option Audit :=
  match audit.entry, audit.file with
  | some entry, none =>
    if 0 ≤ size ∧ (entry.archived ∨ entry.size = some size) then
      some { audit with file := some ⟨size, 0⟩ }
    else
      none
  | _, _ => none

-- The bytes are those that come next, and no more than the file has.
def handOver (audit : Audit) (bytes : List UInt8) (received size : Int) : Option Audit :=
  match audit.entry, audit.file with
  | some entry, some file =>
    if bytes <+: entry.unread ∧ size = file.size ∧ received = file.written + bytes.length ∧
        received ≤ size then
      some { audit with
        entry := some { entry with unread := entry.unread.drop bytes.length }
        file := some { file with written := received } }
    else
      none
  | _, _ => none

-- A file of an archive is closed when it has all its bytes.
def closeMember (audit : Audit) : Option Audit :=
  match audit.entry, audit.file with
  | some entry, some file =>
    if entry.archived ∧ file.written = file.size then some { audit with file := none } else none
  | _, _ => none

variable [Library]

-- The entry has the declared number of bytes, all of them were handed over, and their digest is
-- the one that the peer has sent.
def verify (audit : Audit) (digest : List UInt8) : Option Audit :=
  match audit.entry with
  | none => none
  | some entry =>
    if entry.size = some (entry.content.length : Int) ∧ entry.unread = [] ∧
        Library.md5 entry.content = digest ∧
        audit.latest.any (fun frame => frame.is "MD5" ∧ frame.payload = .encodedBytes digest) ∧
        audit.file =
          if entry.archived then none
          else some ⟨entry.content.length, entry.content.length⟩ then
      some { audit with entry := none, file := none }
    else
      none

-- All entries that were announced are finished.
def finish (audit : Audit) : Option Audit :=
  if audit.entry = none ∧ audit.file = none ∧ audit.announced = some audit.entries then
    some { audit with complete := true }
  else
    none

def emit (audit : Audit) : DownloadEvent → Option Audit
  | .fileCount count =>
    if audit.announced = none then some { audit with announced := some count } else none
  | .fileName _ => audit.named
  | .filePath _ _ _ =>
    match audit.entry with
    | none => some audit
    | some entry => audit.takeLine entry
  | .directory _ _ _ =>
    match audit.entry with
    | none =>
      if audit.folder then none
      else some { audit with folder := true, entries := audit.entries + 1 }
    | some entry => audit.takeLine entry
  | .fileSize _ size => audit.openFile size
  | .data _ bytes received size => audit.handOver bytes received size
  | .fileFinished _ [] => audit.closeMember
  | .fileFinished _ digest => audit.verify digest
  | .completed _ => audit.finish

def act (audit : Audit) : Act → Option Audit
  | .consume bytes => audit.consume bytes
  | .emit event => audit.emit event

def step (audit : Audit) (observation : Observation) : Option Audit :=
  if audit.complete then
    none
  else
    match observation with
    | .frame frame => some (audit.see frame)
    | .act act => audit.act act

def run (audit : Audit) (trace : List Observation) : Option Audit :=
  trace.foldlM step audit

end Audit

end NyaTerm.Trzsz

import NyaTerm.Trzsz.Sink

-- The receiving side of a ZMODEM transfer, as far as it handles files. The protocol itself is a
-- library that is polled.
namespace NyaTerm.Zmodem

open Trzsz (Path LocalPaths join)

def invalid : List Char := ['<', '>', ':', '"', '|', '?', '*']

def sanitizeChar (c : Char) : Char :=
  if c ∈ invalid ∨ Text.isControl c then '_' else c

-- What follows the last separator of either kind.
def lastPart (name : String) : List Char :=
  (name.toList.reverse.takeWhile fun c => c ≠ '/' ∧ c ≠ '\\').reverse

def sanitizeFilename (name : String) : String :=
  let sanitized := (lastPart name).map sanitizeChar
  if sanitized = [] then "zmodem_file" else String.ofList sanitized

inductive Polled
  | writeWire (bytes : List UInt8)
  | writeFile (bytes : List UInt8)
  | fileStarted (name : List UInt8) (size : Option Nat)
  | fileCompleted
  | sessionCompleted
  | aborted
  | idle

-- What the file system answers, and the library when bytes are acknowledged.
structure Answers where
  file : Except String Unit
  acknowledge : Except String Unit

structure ReceiveFile where
  name : String
  size : Nat
  written : Nat

-- The number of files, or why the transfer failed.
abbrev Outcome := Except String UInt32

structure Transfer where
  saveDir : Path
  currentFile : Option ReceiveFile
  fileCount : UInt32
  -- The paths that were opened for writing.
  opened : List Path
  outcome : Option Outcome

namespace Transfer

def new (saveDir : Path) : Transfer :=
  ⟨saveDir, none, 0, [], none⟩

def fail (transfer : Transfer) (reason : String) : Transfer :=
  { transfer with outcome := some (.error reason) }

section Steps

variable [LocalPaths] (lossy : List UInt8 → String)

def startFile (transfer : Transfer) (name : List UInt8) (size : Option Nat)
    (answer : Except String Unit) : Transfer :=
  let name := sanitizeFilename (lossy name)
  let transfer := { transfer with opened := transfer.opened ++ [join transfer.saveDir name] }
  match answer with
  | .ok () => { transfer with currentFile := some ⟨name, size.getD 0, 0⟩ }
  | .error e => transfer.fail ("Failed to create file: " ++ e)

def writeFile (transfer : Transfer) (bytes : List UInt8) (answers : Answers) : Transfer :=
  match transfer.currentFile with
  | none => transfer.fail "ZMODEM file data arrived before any file header"
  | some file =>
    match answers.file with
    | .error e => transfer.fail ("File write error: " ++ e)
    | .ok () =>
      let transfer := { transfer with
        currentFile := some { file with written := file.written + bytes.length } }
      match answers.acknowledge with
      | .ok () => transfer
      | .error e => transfer.fail ("File acknowledgement error: " ++ e)

def completeFile (transfer : Transfer) (answer : Except String Unit) : Transfer :=
  match transfer.currentFile, answer with
  | some _, .error e => transfer.fail ("File flush error: " ++ e)
  | _, _ => { transfer with currentFile := none, fileCount := transfer.fileCount + 1 }

def handle (transfer : Transfer) (polled : Polled) (answers : Answers) : Transfer :=
  match polled with
  | .writeWire _ => transfer
  | .writeFile bytes => transfer.writeFile bytes answers
  | .fileStarted name size => transfer.startFile lossy name size answers.file
  | .fileCompleted => transfer.completeFile answers.file
  | .sessionCompleted => { transfer with outcome := some (.ok transfer.fileCount) }
  | .aborted => transfer.fail "Remote aborted the ZMODEM session"
  | .idle => transfer

-- A transfer that has ended takes nothing any more.
def step (transfer : Transfer) (input : Polled × Answers) : Transfer :=
  if transfer.outcome.isSome then transfer else transfer.handle lossy input.1 input.2

def run (transfer : Transfer) (inputs : List (Polled × Answers)) : Transfer :=
  inputs.foldl (step lossy) transfer

end Steps

end Transfer

section

variable [LocalPaths] (lossy : List UInt8 → String)

-- A transfer with the files that it writes. What a writer still buffers counts as written, since it is
-- flushed before the next file.
structure Download where
  transfer : Transfer
  files : Path → Option (List UInt8)

namespace Download

-- A file is created empty, whatever it was before.
def store (download : Download) (polled : Polled) (answers : Answers) : Path → Option (List UInt8) :=
  match polled, download.transfer.currentFile, answers.file with
  | .fileStarted name _, _, .ok () =>
    Function.update download.files (join download.transfer.saveDir (sanitizeFilename (lossy name))) (some [])
  | .writeFile bytes, some file, .ok () =>
    let path := join download.transfer.saveDir file.name
    Function.update download.files path ((download.files path).map (· ++ bytes))
  | _, _, _ => download.files

def step (download : Download) (input : Polled × Answers) : Download where
  transfer := download.transfer.step lossy input
  files := if download.transfer.outcome.isSome then download.files else download.store lossy input.1 input.2

def run (download : Download) (inputs : List (Polled × Answers)) : Download :=
  inputs.foldl (step lossy) download

end Download

end

end NyaTerm.Zmodem

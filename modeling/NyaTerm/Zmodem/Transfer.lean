import NyaTerm.Zmodem.Detect
import NyaTerm.Zmodem.Receive

-- A ZMODEM transfer from its detection to its end. The protocol library, the files and the clock are
-- given by their answers.
namespace NyaTerm.Zmodem

open Detect (Direction zdle)

def cancelSeqLen : Nat := 5
def wireBatchSize : Nat := 64 * 1024
-- In milliseconds.
def zmodemProgressInterval : Nat := 100
def zmodemProgressBytes : Nat := 256 * 1024

inductive ZmodemEvent
  | progress (fileName : String) (bytesTransferred totalSize : Nat) (direction : Direction)
  | complete (direction : Direction) (fileCount : UInt32)
  | failed (reason : String)
  deriving DecidableEq

inductive ZmodemAction
  | sendToRemote (bytes : List UInt8)
  | emitEvent (event : ZmodemEvent)
  deriving DecidableEq

structure SendFile where
  name : String
  size : Nat
  sent : Nat
  position : Nat

inductive TransferState
  | waitingForUser (buffered : List UInt8)
  | receiving (currentFile : Option ReceiveFile)
  | sending (files : List String) (fileIndex : Nat) (currentFile : Option SendFile)
  | done

structure ProgressThrottle where
  lastEmitAt : Option Nat
  lastEmitBytes : Nat

def ProgressThrottle.new : ProgressThrottle :=
  ⟨none, 0⟩

def ProgressThrottle.shouldEmitAt (throttle : ProgressThrottle) (bytesTransferred : Nat) (force : Bool)
    (now : Nat) : Bool :=
  force ∨ throttle.lastEmitAt = none ∨ zmodemProgressBytes ≤ bytesTransferred - throttle.lastEmitBytes ∨
    throttle.lastEmitAt.any fun last => zmodemProgressInterval ≤ now - last

structure ZmodemTransfer where
  state : TransferState
  cancelCount : Nat
  fileCount : UInt32
  progressThrottle : ProgressThrottle
  consumed : Nat
  wireBudget : Option Nat
  wireProduced : Nat
  more : Bool

-- The actions of a call and the transfer after it.
abbrev Turn := List ZmodemAction × ZmodemTransfer

def Turn.andThen (turn : Turn) (next : ZmodemTransfer → Turn) : Turn :=
  (turn.1 ++ (next turn.2).1, (next turn.2).2)

-- A poll of the receiver with the answers to what it asks for, and the wire bytes that are still queued.
structure Received where
  polled : Polled
  answers : Answers
  queued : List (List UInt8)
  now : Nat

inductive SenderPolled
  | writeWire (bytes : List UInt8)
  | readFile (offset maxLen : Nat)
  | fileCompleted
  | sessionCompleted
  | aborted
  | idle

-- Why `start_file_for_sender` fails.
inductive StartError
  | opening (e : String)
  | metadata (e : String)
  | tooLarge
  | library (e : String)

def StartError.reason : StartError → String
  | .opening e => "Failed to open upload: " ++ e
  | .metadata e => "Failed to read upload metadata: " ++ e
  | .tooLarge => "ZMODEM files must be smaller than 4 GiB"
  | .library e => "start_file error: " ++ e

-- A poll of the sender. A file is started with its size, and the library accepts data and the end.
structure Sent where
  polled : SenderPolled
  seek : Except String Unit
  read : Except String Nat
  start : Except StartError Nat
  accept : Except String Unit
  queued : List (List UInt8)
  now : Nat

-- The answer of the library to wire bytes.
inductive Submitted
  | taken (count : Nat)
  | unexpectedCrc
  | error (e : String)

structure Round (π : Type) where
  polls : List π
  submitted : Submitted

structure Rounds where
  receiver : List (Round Received)
  sender : List (Round Sent)

def cancelSequence : List UInt8 :=
  List.replicate cancelSeqLen zdle ++ List.replicate cancelSeqLen 8

def countByte (count : Nat) (b : UInt8) : Nat :=
  if b = zdle then count + 1 else 0

-- The end of the first cancel sequence.
def cancelEnd (count : Nat) : List UInt8 → Option Nat
  | [] => none
  | b :: data =>
    if cancelSeqLen ≤ countByte count b then some 1
    else (cancelEnd (countByte count b) data).map (· + 1)

-- How far the data are given to the library.
def feedLimit (count : Nat) (data : List UInt8) : Nat :=
  match cancelEnd count data with
  | some stop => stop - cancelSeqLen
  | none => data.length

def coalesceInto (result : List ZmodemAction) (action : ZmodemAction) : List ZmodemAction :=
  match action, result.getLast? with
  | .sendToRemote bytes, some (.sendToRemote previous) =>
    if previous.length + bytes.length ≤ wireBatchSize then
      result.dropLast ++ [.sendToRemote (previous ++ bytes)]
    else
      result ++ [action]
  | _, _ => result ++ [action]

def coalesceWire (actions : List ZmodemAction) : List ZmodemAction :=
  actions.foldl coalesceInto []

namespace ZmodemTransfer

def new (initialBytes : List UInt8) : ZmodemTransfer where
  state := .waitingForUser initialBytes
  cancelCount := 0
  fileCount := 0
  progressThrottle := .new
  consumed := 0
  wireBudget := none
  wireProduced := 0
  more := false

def isDone (transfer : ZmodemTransfer) : Bool :=
  match transfer.state with
  | .done => true
  | _ => false

def cancelWithReason (transfer : ZmodemTransfer) (reason : String) : Turn :=
  ([.sendToRemote cancelSequence, .emitEvent (.failed reason)], { transfer with state := .done })

-- The wire bytes that are queued with the last event go out before it.
def finishWith (transfer : ZmodemTransfer) (queued : List (List UInt8)) (event : ZmodemEvent) : Turn :=
  (queued.map .sendToRemote ++ [.emitEvent event], { transfer with state := .done })

def emitProgress (transfer : ZmodemTransfer) (name : String) (bytes size : Nat) (direction : Direction)
    (force : Bool) (now : Nat) : Turn :=
  if transfer.progressThrottle.shouldEmitAt bytes force now then
    ([.emitEvent (.progress name bytes size direction)],
      { transfer with progressThrottle := ⟨some now, bytes⟩ })
  else
    ([], transfer)

-- The transfer goes on, or it fails.
def orCancel (transfer : ZmodemTransfer) (label : String) : Except String Unit → Turn
  | .ok () => ([], transfer)
  | .error e => transfer.cancelWithReason (label ++ e)

def writeWire (transfer : ZmodemTransfer) (bytes : List UInt8) : Turn :=
  ([.sendToRemote bytes], { transfer with wireProduced := transfer.wireProduced + bytes.length })

section Receiver

variable (lossy : List UInt8 → String)

def receiveData (transfer : ZmodemTransfer) (file : ReceiveFile) (bytes : List UInt8) (received : Received) :
    Turn :=
  let file := { file with written := file.written + bytes.length }
  (emitProgress { transfer with state := .receiving (some file) } file.name file.written file.size
    .download false received.now).andThen fun transfer =>
      transfer.orCancel "File acknowledgement error: " received.answers.acknowledge

def receiveFile (transfer : ZmodemTransfer) (name : String) (size : Nat) (now : Nat) : Turn :=
  emitProgress { transfer with
    state := .receiving (some ⟨name, size, 0⟩), progressThrottle := .new } name 0 size .download true now

def endFile (transfer : ZmodemTransfer) : ZmodemTransfer :=
  { transfer with state := .receiving none, fileCount := transfer.fileCount + 1 }

-- One round of the loop of `pump_receiver`, which stops if the receiver is idle.
def handleReceived (transfer : ZmodemTransfer) (received : Received) : Option Turn :=
  match transfer.state with
  | .receiving currentFile =>
    match received.polled, currentFile, received.answers.file with
    | .writeWire bytes, _, _ => some (transfer.writeWire bytes)
    | .writeFile _, none, _ =>
      some (transfer.cancelWithReason "ZMODEM file data arrived before any file header")
    | .writeFile _, some _, .error e => some (transfer.cancelWithReason ("File write error: " ++ e))
    | .writeFile bytes, some file, .ok () => some (transfer.receiveData file bytes received)
    | .fileStarted _ _, _, .error e =>
      some (transfer.cancelWithReason ("Failed to create file: " ++ e))
    | .fileStarted name size, _, .ok () =>
      some (transfer.receiveFile (sanitizeFilename (lossy name)) (size.getD 0) received.now)
    | .fileCompleted, none, _ => some ([], transfer.endFile)
    | .fileCompleted, some file, flushed =>
      some ((transfer.emitProgress file.name file.written file.size .download true received.now).andThen
        fun transfer => (transfer.orCancel "File flush error: " flushed).andThen fun transfer =>
          if transfer.isDone then ([], transfer) else ([], transfer.endFile))
    | .sessionCompleted, _, _ =>
      some (transfer.finishWith received.queued (.complete .download transfer.fileCount))
    | .aborted, _, _ =>
      some (transfer.finishWith received.queued (.failed "Remote aborted the ZMODEM session"))
    | .idle, _, _ => none
  | _ => none

end Receiver

-- `start_file_for_sender`, and the first progress of the file.
def startFile (transfer : ZmodemTransfer) (files : List String) (index : Nat)
    (start : Except StartError Nat) (now : Nat) : Turn :=
  match start with
  | .error e => cancelWithReason { transfer with progressThrottle := .new } e.reason
  | .ok size =>
    let file : SendFile := ⟨files.getD index "file", size, 0, 0⟩
    emitProgress { transfer with
      state := .sending files index (some file), progressThrottle := .new } file.name 0 size .upload true now

def sendData (transfer : ZmodemTransfer) (files : List String) (index : Nat) (file : SendFile)
    (offset : Nat) (sent : Sent) : Turn :=
  match if file.position = offset then .ok () else sent.seek with
  | .error e => transfer.cancelWithReason ("File seek error: " ++ e)
  | .ok () =>
    match sent.read with
    | .error e => transfer.cancelWithReason ("File read error: " ++ e)
    | .ok read =>
      if read = 0 then
        transfer.cancelWithReason "File ended before the advertised size"
      else
        let file := { file with sent := max file.sent (offset + read), position := offset + read }
        (emitProgress { transfer with state := .sending files index (some file) } file.name file.sent
          file.size .upload false sent.now).andThen fun transfer =>
            transfer.orCancel "ZMODEM send error: " sent.accept

def nextFile (transfer : ZmodemTransfer) (files : List String) (index : Nat) (sent : Sent) : Turn :=
  let transfer := { transfer with
    state := .sending files index none, fileCount := transfer.fileCount + 1 }
  if index < files.length then transfer.startFile files index sent.start sent.now
  else transfer.orCancel "finish error: " sent.accept

-- One round of the loop of `pump_sender`.
def handleSent (transfer : ZmodemTransfer) (sent : Sent) : Option Turn :=
  match transfer.state with
  | .sending files index currentFile =>
    match sent.polled, currentFile with
    | .writeWire bytes, _ => some (transfer.writeWire bytes)
    | .readFile _ _, none =>
      some (transfer.cancelWithReason "ZMODEM sender requested data with no file open")
    | .readFile offset _, some file => some (transfer.sendData files index file offset sent)
    | .fileCompleted, none => some (transfer.nextFile files (index + 1) sent)
    | .fileCompleted, some file =>
      some ((transfer.emitProgress file.name file.sent file.size .upload true sent.now).andThen
        fun transfer => transfer.nextFile files (index + 1) sent)
    | .sessionCompleted, _ =>
      some (transfer.finishWith sent.queued (.complete .upload transfer.fileCount))
    | .aborted, _ =>
      some (transfer.finishWith sent.queued (.failed "Remote aborted the ZMODEM session"))
    | .idle, _ => none
  | _ => none

def budgetSpent (transfer : ZmodemTransfer) : Bool :=
  transfer.wireBudget.any fun limit => limit ≤ transfer.wireProduced

-- The loops of both sides, until the library is idle, the budget is spent or the transfer has ended.
def pump {π : Type} (handle : ZmodemTransfer → π → Option Turn) (transfer : ZmodemTransfer) :
    List π → Turn
  | [] => ([], if transfer.budgetSpent then { transfer with more := true } else transfer)
  | poll :: polls =>
    if transfer.budgetSpent then ([], { transfer with more := true })
    else
      match handle transfer poll with
      | none => ([], transfer)
      | some turn => if turn.2.isDone then turn else turn.andThen fun transfer => transfer.pump handle polls

def pumpReceiver (lossy : List UInt8 → String) : ZmodemTransfer → List Received → Turn :=
  pump (handleReceived lossy)

def pumpSender : ZmodemTransfer → List Sent → Turn :=
  pump handleSent

-- The loops that submit wire bytes, of which so many are given. The library takes no more than these.
def feedRounds {π : Type} (pump : ZmodemTransfer → List π → Turn) (label : String) (limit : Nat)
    (transfer : ZmodemTransfer) (offset : Nat) : List (Round π) → Turn
  | [] => pump transfer []
  | round :: rounds =>
    Turn.andThen (pump transfer round.polls) fun transfer =>
      if transfer.isDone ∨ transfer.more ∨ limit ≤ offset then ([], transfer)
      else
        match round.submitted with
        | .taken count =>
          let consumed := offset + min count (limit - offset)
          if count = 0 then ([], transfer)
          else feedRounds pump label limit { transfer with consumed } consumed rounds
        | .unexpectedCrc =>
          feedRounds pump label limit { transfer with consumed := offset + 1 } (offset + 1) rounds
        | .error e => transfer.cancelWithReason (label ++ e)

section Calls

variable (lossy : List UInt8 → String)

def feedReceiver (transfer : ZmodemTransfer) (limit : Nat) (rounds : List (Round Received)) : Turn :=
  feedRounds (pumpReceiver lossy) "ZMODEM protocol error: " limit transfer 0 rounds

def feedSender (transfer : ZmodemTransfer) (limit : Nat) (rounds : List (Round Sent)) : Turn :=
  feedRounds pumpSender "ZMODEM send error: " limit transfer 0 rounds

-- What is done with the data in front of a cancel sequence.
def take (transfer : ZmodemTransfer) (data : List UInt8) (rounds : Rounds) : Turn :=
  let limit := feedLimit transfer.cancelCount data
  let transfer := { transfer with consumed := 0 }
  match transfer.state with
  | .waitingForUser buffered =>
    ([], { transfer with consumed := limit, state := .waitingForUser (buffered ++ data.take limit) })
  | .receiving _ => transfer.feedReceiver lossy limit rounds.receiver
  | .sending _ _ _ => transfer.feedSender limit rounds.sender
  | .done => ([], transfer)

-- The actions of the turn are dropped when a cancel sequence follows.
def feedInner (transfer : ZmodemTransfer) (data : List UInt8) (rounds : Rounds) : Turn :=
  let turn := transfer.take lossy data rounds
  let taken := { turn.2 with
    cancelCount := (data.take turn.2.consumed).foldl countByte turn.2.cancelCount }
  match cancelEnd transfer.cancelCount data with
  | some stop =>
    if taken.consumed = feedLimit transfer.cancelCount data ∧ ¬ taken.more ∧ ¬ taken.isDone then
      cancelWithReason { taken with consumed := stop } "Remote cancelled transfer"
    else
      (turn.1, taken)
  | none => (turn.1, taken)

def feedIncoming (transfer : ZmodemTransfer) (data : List UInt8) (rounds : Rounds) : Turn :=
  feedInner lossy { transfer with wireBudget := none, wireProduced := 0, more := false } data rounds

def advance (transfer : ZmodemTransfer) (data : List UInt8) (rounds : Rounds) : Turn :=
  let turn := feedInner lossy { transfer with
    wireBudget := some (wireBatchSize - 4096), wireProduced := 0, more := false } data rounds
  (coalesceWire turn.1, turn.2)

def acceptDownload (transfer : ZmodemTransfer) (created : Except String Unit) (polls : List Received)
    (rounds : Rounds) : Turn :=
  match transfer.state with
  | .waitingForUser buffered =>
    match created with
    | .error e => transfer.cancelWithReason ("Failed to create ZMODEM receiver: " ++ e)
    | .ok () =>
      (pumpReceiver lossy { transfer with state := .receiving none } polls).andThen fun transfer =>
        transfer.feedIncoming lossy buffered rounds
  | _ => ([], transfer)

def startNextSendFile (transfer : ZmodemTransfer) (start : Except StartError Nat) (now : Nat) : Turn :=
  match transfer.state with
  | .sending files index _ =>
    if files.length ≤ index then ([], transfer) else transfer.startFile files index start now
  | _ => ([], transfer)

def flushOutgoing (transfer : ZmodemTransfer) (received : List Received) (sent : List Sent) : Turn :=
  match transfer.state with
  | .receiving _ => pumpReceiver lossy transfer received
  | .sending _ _ _ => pumpSender transfer sent
  | _ => ([], transfer)

-- The files with the answers that an upload starts with.
structure Upload where
  files : List String
  sizes : Except String Unit
  created : Except String Unit
  initial : List Sent
  rounds : Rounds
  start : Except StartError Nat
  now : Nat
  last : List Sent

def acceptUpload (transfer : ZmodemTransfer) (upload : Upload) : Turn :=
  match transfer.state with
  | .waitingForUser buffered =>
    match upload.sizes, upload.created with
    | .error e, _ => transfer.cancelWithReason ("Cannot upload file: " ++ e)
    | .ok (), created =>
      if upload.files = [] then transfer.cancelWithReason "No upload files selected"
      else
        match created with
        | .error e => transfer.cancelWithReason ("Failed to create ZMODEM sender: " ++ e)
        | .ok () =>
          (((flushOutgoing lossy { transfer with state := .sending upload.files 0 none } []
            upload.initial).andThen fun transfer =>
              transfer.feedIncoming lossy buffered upload.rounds).andThen
              fun transfer => transfer.startNextSendFile upload.start upload.now).andThen
                fun transfer => transfer.flushOutgoing lossy [] upload.last
  | _ => ([], transfer)

end Calls

-- The calls of a transfer.
inductive Call
  | feedIncoming (data : List UInt8) (rounds : Rounds)
  | advance (data : List UInt8) (rounds : Rounds)
  | cancel (reason : String)
  | acceptDownload (created : Except String Unit) (polls : List Received) (rounds : Rounds)
  | acceptUpload (upload : Upload)

section Run

variable (lossy : List UInt8 → String)

def call (transfer : ZmodemTransfer) : Call → Turn
  | .feedIncoming data rounds => transfer.feedIncoming lossy data rounds
  | .advance data rounds => transfer.advance lossy data rounds
  | .cancel reason => transfer.cancelWithReason reason
  | .acceptDownload created polls rounds => transfer.acceptDownload lossy created polls rounds
  | .acceptUpload upload => transfer.acceptUpload lossy upload

def run (transfer : ZmodemTransfer) : List Call → Turn
  | [] => ([], transfer)
  | call :: calls => (transfer.call lossy call).andThen fun transfer => transfer.run calls

end Run

end ZmodemTransfer

end NyaTerm.Zmodem

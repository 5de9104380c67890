import Mathlib.Data.List.Basic

-- The sender of XMODEM and YMODEM.
namespace NyaTerm.Xymodem

abbrev Bytes := List UInt8

def soh : UInt8 := 0x01
def stx : UInt8 := 0x02
def eot : UInt8 := 0x04
def ack : UInt8 := 0x06
def nak : UInt8 := 0x15
def can : UInt8 := 0x18
-- The letters C and G.
def crcRequest : UInt8 := 67
def streamRequest : UInt8 := 71

inductive Protocol
  | xmodem
  | ymodem
  deriving DecidableEq

structure Options where
  responseTimeout : Nat
  handshakeTimeout : Nat
  maxRetries : Nat
  deriving DecidableEq

inductive TransferError
  | invalidOptions
  | singleFileRequired
  | noFiles
  | invalidFilename
  | readFailed
  | sizeOverflow
  | timedOut
  | retryLimit
  | cancelled
  | remoteCancelled
  | streamingUnsupported
  deriving DecidableEq

-- A file, with the bytes that its reader yields.
structure File where
  name : Bytes
  size : Nat
  content : Bytes
  deriving DecidableEq

structure Progress where
  fileName : Bytes
  bytesTransferred : Nat
  totalBytes : Nat
  filesCompleted : Nat
  filesTotal : Nat
  deriving DecidableEq

inductive Action
  | send (packet : Bytes)
  | progress (progress : Progress)
  | finished (result : Except TransferError Unit)
  deriving DecidableEq

inductive Stage
  | start
  | headerAck
  | dataStart
  | dataAck
  | eotAck
  | batchAck
  | done
  deriving DecidableEq

def crcBit (crc : UInt16) : UInt16 :=
  if crc &&& 0x8000 ≠ 0 then (crc <<< 1) ^^^ 0x1021 else crc <<< 1

def crcByte (crc : UInt16) (byte : UInt8) : UInt16 :=
  crcBit (crcBit (crcBit (crcBit (crcBit (crcBit (crcBit (crcBit (crc ^^^ (byte.toUInt16 <<< 8)))))))))

def crc16 (bytes : Bytes) : UInt16 :=
  bytes.foldl crcByte 0

def crcBytes (bytes : Bytes) : Bytes :=
  [(crc16 bytes >>> 8).toUInt8, (crc16 bytes).toUInt8]

def checksum (bytes : Bytes) : UInt8 :=
  bytes.foldl (· + ·) 0

def packet (sequence : UInt8) (data : Bytes) (crc : Bool) : Bytes :=
  [if data.length = 1024 then stx else soh, sequence, ~~~sequence] ++ data ++
    if crc then crcBytes data else [checksum data]

-- `to_string`, of a number.
def digits (n : Nat) : Bytes :=
  (Nat.toDigits 10 n).map fun c => UInt8.ofNat c.toNat

-- The name and the size, in a block of zeros.
def header (file : File) : Bytes :=
  let text := file.name ++ [0] ++ digits file.size
  text ++ List.replicate (128 - text.length) 0

structure Sender where
  protocol : Protocol
  options : Options
  files : List File
  fileIndex : Nat
  offset : Nat
  totalBytes : Nat
  acceptedBytes : Nat
  sequence : UInt8
  pendingBytes : Nat
  stage : Stage
  crc : Bool
  lastPacket : Bytes
  retries : Nat
  deadline : Nat
  lastCan : Bool
  initialProgressEmitted : Bool
  -- What the reader of the current file has not yielded.
  unread : Bytes
  deriving DecidableEq

-- The names are compared in lower case.
def checkFiles (lower : Bytes → Bytes) (protocol : Protocol) :
    List File → (names : List Bytes) → (totalBytes : Nat) → Except TransferError Nat
  | [], _, totalBytes => .ok totalBytes
  | file :: files, names, totalBytes =>
    if protocol = .ymodem ∧ (file.name = [] ∨ (0 ∈ file.name ∨ 47 ∈ file.name ∨ 92 ∈ file.name) ∨
        128 < file.name.length + (digits file.size).length + 2 ∨ names.any (· = lower file.name)) then
      .error .invalidFilename
    else if 18446744073709551616 ≤ totalBytes + file.size then
      .error .sizeOverflow
    else
      checkFiles lower protocol files (lower file.name :: names) (totalBytes + file.size)

namespace Sender

def new (lower : Bytes → Bytes) (protocol : Protocol) (files : List File) (options : Options) :
    Except TransferError Sender :=
  if files = [] then
    .error .noFiles
  else if protocol = .xmodem ∧ files.length ≠ 1 then
    .error .singleFileRequired
  else if options.responseTimeout = 0 ∨ options.handshakeTimeout = 0 ∨ options.maxRetries = 0 then
    .error .invalidOptions
  else
    (checkFiles lower protocol files [] 0).map fun totalBytes =>
      { protocol, options, files, totalBytes
        fileIndex := 0
        offset := 0
        acceptedBytes := 0
        sequence := 1
        pendingBytes := 0
        stage := .start
        crc := false
        lastPacket := []
        retries := 0
        deadline := options.handshakeTimeout
        lastCan := false
        initialProgressEmitted := false
        unread := (files.head?.map File.content).getD [] }

def isDone (sender : Sender) : Bool :=
  sender.stage = .done

def progress (sender : Sender) : Progress where
  fileName := ((sender.files[sender.fileIndex]?.or sender.files.getLast?).map File.name).getD []
  bytesTransferred := sender.acceptedBytes
  totalBytes := sender.totalBytes
  filesCompleted := sender.fileIndex
  filesTotal := sender.files.length

def initialProgress (sender : Sender) : List Action × Sender :=
  if sender.initialProgressEmitted then ([], sender)
  else
    let sender := { sender with initialProgressEmitted := true }
    ([.progress sender.progress], sender)

def fail (sender : Sender) (error : TransferError) : List Action × Sender :=
  if sender.isDone then ([], sender)
  else
    ([.send (List.replicate 8 can), .finished (.error error)],
      { sender with stage := .done, lastPacket := [] })

def cancel (sender : Sender) : List Action × Sender :=
  sender.fail .cancelled

def send (sender : Sender) (packet : Bytes) (now : Nat) : List Action × Sender :=
  ([.send packet],
    { sender with lastPacket := packet, deadline := now + sender.options.responseTimeout })

def retry (sender : Sender) (now : Nat) (error : TransferError) : List Action × Sender :=
  if sender.options.maxRetries ≤ sender.retries then
    sender.fail error
  else
    (if sender.lastPacket = [] then [] else [.send sender.lastPacket],
      { sender with
        retries := sender.retries + 1
        deadline := now +
          if sender.stage = .start ∨ sender.stage = .dataStart then sender.options.handshakeTimeout
          else sender.options.responseTimeout })

-- The next block of the file, or its end.
def nextData (sender : Sender) (now : Nat) : List Action × Sender :=
  match sender.files[sender.fileIndex]? with
  | none => ([], sender)
  | some file =>
    let remaining := file.size - sender.offset
    if remaining = 0 then
      { sender with stage := .eotAck }.send [eot] now
    else
      let blockSize := if sender.protocol = .ymodem ∧ 128 < remaining then 1024 else 128
      let size := min remaining blockSize
      if sender.unread.length < size then
        sender.fail .readFailed
      else
        let data := sender.unread.take size ++ List.replicate (blockSize - size) 0x1a
        { sender with pendingBytes := size, stage := .dataAck, unread := sender.unread.drop size }.send
          (packet sender.sequence data sender.crc) now

-- The receiver asks for a file.
def startFile (sender : Sender) (now : Nat) (crc : Bool) : List Action × Sender :=
  let sender := { sender with crc, retries := 0 }
  match sender.protocol with
  | .xmodem => sender.nextData now
  | .ymodem =>
    match sender.files[sender.fileIndex]? with
    | some file => { sender with stage := .headerAck }.send (packet 0 (header file) crc) now
    | none => { sender with stage := .batchAck }.send (packet 0 (List.replicate 128 0) crc) now

-- The block has been acknowledged.
def advance (sender : Sender) : Sender :=
  { sender with
    offset := sender.offset + sender.pendingBytes
    acceptedBytes := sender.acceptedBytes + sender.pendingBytes
    sequence := sender.sequence + 1
    retries := 0 }

def ackData (sender : Sender) (now : Nat) : List Action × Sender :=
  let next := sender.advance.nextData now
  (.progress sender.advance.progress :: next.1, next.2)

-- The receiver asks for the first block with a CRC.
def switchToCrc (sender : Sender) : Sender :=
  if sender.crc then sender
  else
    { sender with
      crc := true
      lastPacket := sender.lastPacket.dropLast ++ crcBytes (sender.lastPacket.dropLast.drop 3) }

-- The end of the file has been acknowledged.
def nextFile (sender : Sender) : Sender :=
  { sender with
    fileIndex := sender.fileIndex + 1
    offset := 0
    sequence := 1
    retries := 0
    lastPacket := []
    unread := (sender.files[sender.fileIndex + 1]?.map File.content).getD [] }

def ackEot (sender : Sender) (now : Nat) : List Action × Sender :=
  match sender.protocol with
  | .xmodem =>
    ([.progress sender.nextFile.progress, .finished (.ok ())], { sender.nextFile with stage := .done })
  | .ymodem =>
    ([.progress sender.nextFile.progress],
      { sender.nextFile with stage := .start, deadline := now + sender.options.handshakeTimeout })

-- A byte that is not CAN.
def respond (sender : Sender) (now : Nat) (byte : UInt8) : List Action × Sender :=
  match sender.stage with
  | .start =>
    if byte = crcRequest ∨ byte = nak then sender.startFile now (byte = crcRequest)
    else if byte = streamRequest then sender.fail .streamingUnsupported
    else ([], sender)
  | .headerAck =>
    if byte = ack then
      ([], { sender with
        stage := .dataStart, retries := 0, deadline := now + sender.options.handshakeTimeout })
    else if byte = nak ∨ byte = crcRequest then sender.retry now .retryLimit
    else ([], sender)
  | .dataStart =>
    if byte = streamRequest then sender.fail .streamingUnsupported
    else if byte = crcRequest ∨ byte = nak then
      { sender with crc := byte = crcRequest, retries := 0 }.nextData now
    else ([], sender)
  | .dataAck =>
    if byte = ack then sender.ackData now
    else if byte = nak then sender.retry now .retryLimit
    else if byte = crcRequest ∧ sender.offset = 0 then sender.switchToCrc.retry now .retryLimit
    else ([], sender)
  | .eotAck =>
    if byte = nak then sender.retry now .retryLimit
    else if byte = ack then sender.ackEot now
    else ([], sender)
  | .batchAck =>
    if byte = ack then ([.finished (.ok ())], { sender with stage := .done })
    else if byte = nak ∨ byte = crcRequest then sender.retry now .retryLimit
    else ([], sender)
  | .done => ([], sender)

-- Two CAN one after the other cancel the transfer.
def receive (sender : Sender) (now : Nat) (byte : UInt8) : List Action × Sender :=
  if byte = can then
    let failed := if sender.lastCan then sender.fail .remoteCancelled else ([], sender)
    (failed.1, { failed.2 with lastCan := true })
  else
    { sender with lastCan := false }.respond now byte

def receiveAll (sender : Sender) (now : Nat) : Bytes → List Action × Sender
  | [] => ([], sender)
  | byte :: input =>
    if sender.isDone then ([], sender)
    else
      let later := (sender.receive now byte).2.receiveAll now input
      ((sender.receive now byte).1 ++ later.1, later.2)

def feed (sender : Sender) (input : Bytes) (now : Nat) : List Action × Sender :=
  if sender.isDone then ([], sender)
  else
    let received := sender.initialProgress.2.receiveAll now input
    (sender.initialProgress.1 ++ received.1, received.2)

def tick (sender : Sender) (now : Nat) : List Action × Sender :=
  if sender.isDone then ([], sender)
  else
    let retried :=
      if sender.initialProgress.2.deadline ≤ now then sender.initialProgress.2.retry now .timedOut
      else ([], sender.initialProgress.2)
    (sender.initialProgress.1 ++ retried.1, retried.2)

end Sender

-- What happens to a sender.
inductive Event
  | feed (input : Bytes) (now : Nat)
  | tick (now : Nat)
  | cancel

namespace Sender

def react (sender : Sender) : Event → List Action × Sender
  | .feed input now => sender.feed input now
  | .tick now => sender.tick now
  | .cancel => sender.cancel

def run (sender : Sender) : List Event → List Action × Sender
  | [] => ([], sender)
  | event :: events =>
    let later := (sender.react event).2.run events
    ((sender.react event).1 ++ later.1, later.2)

end Sender

-- The packets that have been acknowledged, of the files that are complete and of the current one,
-- and the packet that was sent last. They are taken from the actions of the sender.
structure Log where
  complete : List (List Bytes)
  current : List Bytes
  sent : Bytes
  deriving DecidableEq

def Action.sent : Bytes → Action → Bytes
  | _, .send packet => packet
  | sent, _ => sent

namespace Log

def empty : Log :=
  ⟨[], [], []⟩

def note (log : Log) (actions : List Action) : Log :=
  { log with sent := actions.foldl Action.sent log.sent }

def receive (log : Log) (sender : Sender) (byte : UInt8) : Log :=
  if byte = ack then
    match sender.stage with
    | .headerAck => { log with current := log.current ++ [log.sent] }
    | .dataAck => { log with current := log.current ++ [log.sent] }
    | .eotAck => { log with complete := log.complete ++ [log.current ++ [log.sent]], current := [] }
    | _ => log
  else log

def receiveAll (log : Log) (sender : Sender) (now : Nat) : Bytes → Log
  | [] => log
  | byte :: input =>
    if sender.isDone then log
    else
      ((log.receive sender byte).note (sender.receive now byte).1).receiveAll
        (sender.receive now byte).2 now input

def react (log : Log) (sender : Sender) : Event → Log
  | .feed input now => if sender.isDone then log else log.receiveAll sender.initialProgress.2 now input
  | event => log.note (sender.react event).1

def run (log : Log) (sender : Sender) : List Event → Log
  | [] => log
  | event :: events => (log.react sender event).run (sender.react event).2 events

end Log

end NyaTerm.Xymodem

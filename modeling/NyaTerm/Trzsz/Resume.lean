import NyaTerm.Trzsz.Stream

-- The upload of a file of which the other side has a part: hashes of its beginning are compared, and
-- what follows the accepted part is sent.
namespace NyaTerm.Trzsz

-- The file that a path names does not change while it is sent.
inductive UploadPayload
  | memory (data : Bytes)
  | file (content : Bytes)

structure UploadEntry where
  name : String
  size : Nat
  payload : UploadPayload

inductive UploadError
  | invalidSource (name : String)
  | invalidPayload (frameType : String)
  | payloadRead (name message : String)
  deriving DecidableEq

inductive UploadReader
  | memory
  -- The position in the file and the number of reads.
  | file (position reads : Nat)

def UploadEntry.openReader (entry : UploadEntry) : UploadReader :=
  match entry.payload with
  | .memory _ => .memory
  | .file _ => .file 0 0

-- A read returns at least one byte if there is one and one is asked for.
def readFile (content : Bytes) (position ready wanted : Nat) : Bytes :=
  (content.drop position).take (min (max 1 ready) wanted)

section Upload

-- How many bytes each read of the file is ready to return, or why it fails.
variable (reads : Nat → Except String Nat) (entry : UploadEntry)

def readUploadChunk (sent : Nat) (reader : UploadReader) : Except UploadError (Bytes × UploadReader) :=
  let chunkSize := min (entry.size - sent) uploadDataChunkSize
  match entry.payload, reader with
  | .memory data, .memory => .ok ((data.drop sent).take chunkSize, .memory)
  | .file content, .file position count =>
    match reads count with
    | .error message => .error (.payloadRead entry.name message)
    | .ok ready =>
      let chunk := readFile content position ready chunkSize
      .ok (chunk, .file (position + chunk.length) (count + 1))
  | _, _ => .error (.payloadRead entry.name "upload payload reader mismatch")

structure PrefixHash where
  step : Nat
  hash : Bytes
  isOver : Bool
  deriving DecidableEq

structure PrefixAck where
  step : Nat
  agreed : Bool

structure PrefixSender where
  limit : Nat
  step : Nat
  matched : Nat
  reader : UploadReader
  -- The bytes that the digest has consumed.
  digest : Bytes

def prefixStep : Nat := 10 * 1024 * 1024

namespace PrefixSender

-- The loop of `next`. Each round consumes a byte, so that there are no more rounds than bytes.
def consume (stop : Nat) : (rounds : Nat) → PrefixSender → Except UploadError PrefixSender
  | 0, sender => .ok sender
  | rounds + 1, sender =>
    if sender.step < stop then
      match readUploadChunk reads entry sender.step sender.reader with
      | .error e => .error e
      | .ok (bytes, reader) =>
        let count := min bytes.length (stop - sender.step)
        if count = 0 then
          .error (.invalidSource entry.name)
        else
          consume stop rounds
            { sender with reader, digest := sender.digest ++ bytes.take count, step := sender.step + count }
    else
      .ok sender

variable [Library]

def next (sender : PrefixSender) : Except UploadError (PrefixSender × PrefixHash) :=
  let stop := min (sender.step + prefixStep) sender.limit
  (sender.consume reads entry stop (stop - sender.step)).map fun sender =>
    (sender, ⟨sender.step, Library.md5 sender.digest, false⟩)

inductive Answer
  | hash (sender : PrefixSender) (hash : PrefixHash)
  | accepted (offset : Nat)

def observePrefixAck (sender : PrefixSender) (ack : PrefixAck) : Except UploadError Answer :=
  if ack.step ≠ sender.step then
    .error (.invalidPayload "SUCC")
  else
    let sender := if ack.agreed then { sender with matched := ack.step } else sender
    if ack.agreed ∧ sender.step < sender.limit then
      (sender.next reads entry).map fun sent => .hash sent.1 sent.2
    else
      .ok (.accepted sender.matched)

-- The negotiation with a peer, with the hashes that are sent. No more rounds are needed than there are
-- bytes to compare.
def negotiate (peer : PrefixHash → PrefixAck) :
    (rounds : Nat) → PrefixSender → PrefixHash → List (PrefixSender × PrefixHash) × Except UploadError Nat
  | 0, sender, hash => ([(sender, hash)], .error (.invalidPayload "SUCC"))
  | rounds + 1, sender, hash =>
    match sender.observePrefixAck reads entry (peer hash) with
    | .error e => ([(sender, hash)], .error e)
    | .ok (.accepted offset) => ([(sender, hash)], .ok offset)
    | .ok (.hash next sent) =>
      let later := negotiate peer rounds next sent
      ((sender, hash) :: later.1, later.2)

end PrefixSender

def unexpectedLength (sent chunk size : Nat) : String :=
  s!"unexpected upload payload length: sent {sent}, chunk {chunk}, size {size}"

-- The data behind the offset, chunk by chunk.
def sendData (offset : Nat) : (rounds sent : Nat) → UploadReader → Except UploadError (List Bytes)
  | 0, _, _ => .ok []
  | rounds + 1, sent, reader =>
    let size := entry.size - offset
    if sent < size then
      match readUploadChunk reads entry (sent + offset) reader with
      | .error e => .error e
      | .ok (chunk, reader) =>
        if chunk.length = 0 ∨ size < sent + chunk.length then
          .error (.payloadRead entry.name (unexpectedLength sent chunk.length size))
        else
          (sendData offset rounds (sent + chunk.length) reader).map (chunk :: ·)
    else
      .ok []

-- The reader of a file starts at the offset.
def UploadReader.seek (offset : Nat) : UploadReader → UploadReader
  | .memory => .memory
  | .file _ count => .file offset count

variable [Library]

-- A peer compares the hash of the same beginning of what it has.
def peerAck (target : Bytes) (hash : PrefixHash) : PrefixAck :=
  ⟨hash.step, Library.md5 (target.take hash.step) = hash.hash⟩

structure Resumed where
  hashes : List (PrefixSender × PrefixHash)
  -- The accepted offset and the chunks that are sent behind it.
  result : Except UploadError (Nat × List Bytes)

-- An upload over what a peer has of the file. The file is opened once for the hashes and once for the
-- data.
def resume (reads' : Nat → Except String Nat) (target : Bytes) : Resumed :=
  let sender : PrefixSender := ⟨min target.length entry.size, 0, 0, entry.openReader, []⟩
  match sender.next reads entry with
  | .error e => ⟨[], .error e⟩
  | .ok (sender, hash) =>
    let negotiated := sender.negotiate reads entry (peerAck target) sender.limit hash
    ⟨negotiated.1, negotiated.2.bind fun offset =>
      (sendData reads' entry offset (entry.size - offset) 0 (entry.openReader.seek offset)).map fun chunks =>
        (offset, chunks)⟩

-- What is read of a file ends with the step, unless it is the last.
def PrefixSender.isAligned (sender : PrefixSender) : Bool :=
  match sender.reader with
  | .memory => true
  | .file position _ => position = sender.step ∨ sender.step = sender.limit

def UploadEntry.content : Bytes :=
  match entry.payload with
  | .memory data => data
  | .file content => content

-- The last step at which the digests of both sides agree.
def lastAgreed (target : Bytes) (offset : Nat) (hashes : List PrefixHash) : Nat :=
  hashes.foldl
    (fun offset hash => if Library.md5 (target.take hash.step) = hash.hash then hash.step else offset) offset

end Upload

end NyaTerm.Trzsz

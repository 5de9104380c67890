import NyaTerm.Trzsz.Archive

namespace NyaTerm.Trzsz

variable [Library]

-- What is sent back to the peer, in a frame of type SUCC.
inductive Response
  | integer (value : Int)
  | string (bytes : List UInt8)
  -- The name and the size of the local file, as a JSON object.
  | target (name : String) (size : Int)
  | progress (wireLength : Nat) (received : Int)
  deriving DecidableEq

inductive DownloadError
  | dataDecode (message : String)
  | unexpectedFrame (expected frameType : String)
  | invalidPayload (frameType : String)
  | dataLengthMismatch (expected actual : Int)
  | dataOverflow (size received chunk : Int)
  | digestMismatch (expected actual : List UInt8)
  deriving DecidableEq

-- The bytes that the MD5 context has consumed stand for the context.
structure DataState where
  remaining : Int
  names : List String
  name : String
  size : Int
  received : Int
  md5 : List UInt8
  expectedBinaryChunk : Option Int

inductive Phase
  | awaitNum
  | awaitName (remaining : Int) (names : List String)
  | awaitSize (remaining : Int) (names : List String) (name : String)
  | awaitData (state : DataState)
  | awaitMd5 (remaining : Int) (names : List String) (name : String) (digest : List UInt8)
  | completed (names : List String)

structure DownloadEngine where
  phase : Phase
  directoryMode : Bool
  protocolVersion : Int
  config : Config
  decoder : Option Library.Decoder
  wireReceived : Nat
  archive : Option Archive.Receiver
  awaitingCompression : Bool

-- What happens while a frame is observed: data is consumed, and events are handed over.
inductive Act
  | consume (bytes : List UInt8)
  | emit (event : DownloadEvent)
  deriving DecidableEq

-- An engine that has failed is not used again, so that its state is left out.
structure Observed where
  acts : List Act
  result : Except DownloadError (DownloadEngine × List Response)

namespace Observed

def fail (error : DownloadError) : Observed :=
  ⟨[], .error error⟩

def done (events : List DownloadEvent) (engine : DownloadEngine) (responses : List Response) :
    Observed :=
  ⟨events.map .emit, .ok (engine, responses)⟩

end Observed

def pushUniqueName (names : List String) (name : String) : List String :=
  if name ∈ names then names else names ++ [name]

namespace Frame

def integerPayload (frame : Frame) : Except DownloadError Int :=
  match frame.payload with
  | .integer value => .ok value
  | _ => .error (.invalidPayload frame.frameType)

def bytesPayload (frame : Frame) : Except DownloadError (List UInt8) :=
  match frame.payload with
  | .encodedBytes bytes => .ok bytes
  | _ => .error (.invalidPayload frame.frameType)

def stringPayload (frame : Frame) : Except DownloadError String :=
  match frame.bytesPayload with
  | .error e => .error e
  | .ok bytes =>
    match Library.utf8 bytes with
    | none => .error (.invalidPayload frame.frameType)
    | some text => .ok text

end Frame

namespace DownloadEngine

def new : DownloadEngine where
  phase := .awaitNum
  directoryMode := false
  protocolVersion := 0
  config := .localDefault
  decoder := none
  wireReceived := 0
  archive := none
  awaitingCompression := false

def configure (engine : DownloadEngine) (config : Config) : Except String DownloadEngine :=
  config.validate.map fun _ =>
    { engine with config, protocolVersion := config.version, directoryMode := config.directory }

def observeNum (engine : DownloadEngine) (frame : Frame) : Observed :=
  if ¬ frame.is "NUM" then
    .fail (.unexpectedFrame "NUM" frame.frameType)
  else
    match frame.integerPayload with
    | .error e => .fail e
    | .ok count =>
      if count < 0 then
        .fail (.invalidPayload "NUM")
      else if count ≤ 0 then
        .done [.fileCount count, .completed []] { engine with phase := .completed [] }
          [.integer count]
      else
        .done [.fileCount count] { engine with phase := .awaitName count [] } [.integer count]

-- The entry is done once it is named or verified, and so may the transfer be.
def nextEntry (engine : DownloadEngine) (remaining : Int) (names : List String) :
    DownloadEngine × List DownloadEvent :=
  if remaining - 1 ≤ 0 then
    ({ engine with phase := .completed names }, [.completed names])
  else
    ({ engine with phase := .awaitName (remaining - 1) names }, [])

-- The entries of directory mode and of protocol 3 and later are described by JSON objects.
def observeEntry (engine : DownloadEngine) (remaining : Int) (names : List String)
    (entry : SourceFile) : Observed :=
  let name := entry.fileName
  let names := pushUniqueName names entry.topLevelName
  let response :=
    if 3 ≤ engine.protocolVersion then .target entry.topLevelName 0
    else .string (Library.toUtf8 entry.topLevelName)
  let directory := .directory name entry.pathId entry.pathName
  if entry.archive then
    if engine.protocolVersion < 4 ∨ ¬ entry.isDir then
      .fail (.invalidPayload "NAME")
    else
      .done [directory, .fileName name]
        { engine with
          archive := some (.new entry)
          phase := .awaitSize remaining names name }
        [response]
  else if entry.isDir then
    let next := engine.nextEntry remaining names
    .done (directory :: next.2) next.1 [response]
  else
    let path := if engine.directoryMode then [.filePath name entry.pathId entry.pathName] else []
    .done (path ++ [.fileName name]) { engine with phase := .awaitSize remaining names name }
      [response]

def observeName (engine : DownloadEngine) (frame : Frame) (remaining : Int) (names : List String) :
    Observed :=
  if ¬ frame.is "NAME" then
    .fail (.unexpectedFrame "NAME" frame.frameType)
  else
    match frame.stringPayload with
    | .error e => .fail e
    | .ok rawName =>
      if engine.directoryMode ∨ 3 ≤ engine.protocolVersion then
        match parseSourceFile rawName with
        | none => .fail (.invalidPayload frame.frameType)
        | some entry => engine.observeEntry remaining names entry
      else
        .done [.fileName rawName] { engine with phase := .awaitSize remaining names rawName }
          [.string (Library.toUtf8 rawName)]

-- The decoder of the data that follows, unless the sender is to say whether data is compressed.
def prepareDecoder (engine : DownloadEngine) (size : Int) : Except DownloadError DownloadEngine :=
  if engine.protocolVersion < 2 then
    .ok engine
  else
    match engine.config.compression size with
    | none => .ok { engine with awaitingCompression := true, decoder := none }
    | some compress =>
      match Library.newDecoder engine.config compress with
      | .error _ => .error (.invalidPayload "CFG")
      | .ok decoder => .ok { engine with awaitingCompression := false, decoder := some decoder }

def observeSize (engine : DownloadEngine) (frame : Frame) (remaining : Int) (names : List String)
    (name : String) : Observed :=
  if ¬ frame.is "SIZE" then
    .fail (.unexpectedFrame "SIZE" frame.frameType)
  else
    match frame.integerPayload with
    | .error e => .fail e
    | .ok size =>
      if size < 0 then
        .fail (.invalidPayload "SIZE")
      else
        match engine.prepareDecoder size with
        | .error e => .fail e
        | .ok engine =>
          let phase :=
            if size = 0 ∧ engine.protocolVersion < 2 then
              .awaitMd5 remaining names name (Library.md5 [])
            else
              .awaitData ⟨remaining, names, name, size, 0, [], none⟩
          .done (if engine.archive.isSome then [] else [.fileSize name size]) { engine with phase }
            [.integer size]

-- In binary mode, the data of protocols 0 and 1 is decoded frame by frame.
def legacyBytes (engine : DownloadEngine) (bytes : List UInt8) : Except DownloadError (List UInt8) :=
  if engine.config.binary then
    match Library.newDecoder engine.config false with
    | .error _ => .error (.invalidPayload "CFG")
    | .ok decoder =>
      match Library.decode decoder bytes true with
      | (_, .error _) => .error (.invalidPayload "DATA")
      | (pieces, .ok _) => .ok pieces.flatten
  else
    .ok bytes

def takeLegacy (engine : DownloadEngine) (state : DataState) (bytes : List UInt8) : Observed :=
  let received := state.received + bytes.length
  if received > state.size then
    .fail (.dataOverflow state.size state.received bytes.length)
  else
    let md5 := state.md5 ++ bytes
    let phase :=
      if received = state.size then
        .awaitMd5 state.remaining state.names state.name (Library.md5 md5)
      else
        .awaitData { state with received, md5, expectedBinaryChunk := none }
    ⟨[.consume bytes, .emit (.data state.name bytes received state.size)],
      .ok ({ engine with phase }, [.integer bytes.length])⟩

def observeLegacyData (engine : DownloadEngine) (frame : Frame) (state : DataState) : Observed :=
  if ¬ frame.is "DATA" then
    .fail (.unexpectedFrame "DATA" frame.frameType)
  else
    match frame.payload with
    | .integer length =>
      .done [] { engine with phase := .awaitData { state with expectedBinaryChunk := some length } } []
    | _ =>
      match frame.bytesPayload with
      | .error e => .fail e
      | .ok wire =>
        if state.expectedBinaryChunk.all (· = (wire.length : Int)) then
          match engine.legacyBytes wire with
          | .error e => .fail e
          | .ok bytes => engine.takeLegacy state bytes
        else
          .fail (.dataLengthMismatch (state.expectedBinaryChunk.getD 0) wire.length)

-- The pieces that a decoder hands over go to the archive or to the file.
def takePieces : DataState → Option Archive.Receiver → List (List UInt8) →
    List Act × Except String (DataState × Option Archive.Receiver)
  | state, archive, [] => ([], .ok (state, archive))
  | state, archive, piece :: pieces =>
    if piece = [] then
      takePieces state archive pieces
    else if state.received + piece.length > state.size then
      ([], .error "trzsz data exceeds declared size")
    else
      let state :=
        { state with md5 := state.md5 ++ piece, received := state.received + piece.length }
      match archive with
      | none =>
        let later := takePieces state none pieces
        (.consume piece :: .emit (.data state.name piece state.received state.size) :: later.1, later.2)
      | some receiver =>
        match receiver.push piece with
        | (events, .error e) => (.consume piece :: events.map .emit, .error e)
        | (events, .ok receiver) =>
          let later := takePieces state (some receiver) pieces
          (.consume piece :: (events.map .emit ++ later.1), later.2)

-- Whether the bytes on the wire are those of the announced chunk.
def fitsChunk (expected : Option Int) (wireReceived : Nat) (last : Bool) : Bool :=
  expected.all fun expected =>
    ¬ ((wireReceived : Int) > expected ∨ last ∧ (wireReceived : Int) ≠ expected)

-- What remains to do when a frame ends: the empty frame ends the data.
def endFrame (engine : DownloadEngine) (frame : Frame) (state : DataState) :
    Except DownloadError (DownloadEngine × List Response) :=
  let progress := .progress engine.wireReceived state.received
  if engine.wireReceived ≠ 0 then
    .ok ({ engine with wireReceived := 0, phase := .awaitData state }, [progress])
  else if state.received ≠ state.size then
    .error (.invalidPayload frame.frameType)
  else
    match engine.archive.elim (.ok ()) Archive.Receiver.finish with
    | .error _ => .error (.invalidPayload frame.frameType)
    | .ok _ =>
      .ok ({ engine with
        archive := none
        phase := .awaitMd5 state.remaining state.names state.name (Library.md5 state.md5) },
        [progress, .integer state.received])

def takeModern (engine : DownloadEngine) (frame : Frame) (state : DataState) (bytes : List UInt8)
    (last : Bool) : Observed :=
  let wireReceived := engine.wireReceived + bytes.length
  if ¬ fitsChunk state.expectedBinaryChunk wireReceived last then
    .fail (.invalidPayload frame.frameType)
  else
    match engine.decoder with
    | none => .fail (.invalidPayload frame.frameType)
    | some decoder =>
      let state :=
        { state with expectedBinaryChunk := if last then none else state.expectedBinaryChunk }
      let decoded := Library.decode decoder bytes (last && wireReceived == 0)
      match takePieces state engine.archive decoded.1 with
      | (acts, .error message) => ⟨acts, .error (.dataDecode message)⟩
      | (acts, .ok (state, archive)) =>
        match decoded.2 with
        | .error message => ⟨acts, .error (.dataDecode message)⟩
        | .ok decoder =>
          let engine := { engine with decoder := some decoder, archive, wireReceived }
          if last then ⟨acts, engine.endFrame frame state⟩
          else ⟨acts, .ok ({ engine with phase := .awaitData state }, [])⟩

-- The sender says whether data is compressed.
def observeCompression (engine : DownloadEngine) (frame : Frame) (state : DataState) : Observed :=
  if frame.frameType = "COMP" ∧ (frame.payload = .raw "true" ∨ frame.payload = .raw "false") then
    match Library.newDecoder engine.config (frame.payload = .raw "true") with
    | .error _ => .fail (.invalidPayload frame.frameType)
    | .ok decoder =>
      .done []
        { engine with
          decoder := some decoder
          awaitingCompression := false
          phase := .awaitData state }
        []
  else
    .fail (.invalidPayload frame.frameType)

def observeModernData (engine : DownloadEngine) (frame : Frame) (state : DataState) : Observed :=
  if frame.payload = .raw "=" ∧ 3 ≤ engine.protocolVersion then
    .done [] { engine with phase := .awaitData state } []
  else if engine.awaitingCompression then
    engine.observeCompression frame state
  else if frame.frameType ≠ "DATA" then
    .fail (.invalidPayload frame.frameType)
  else
    match frame.payload with
    | .integer length =>
      if length < 0 ∨ state.expectedBinaryChunk.isSome then
        .fail (.invalidPayload frame.frameType)
      else if length > 0 then
        .done [] { engine with phase := .awaitData { state with expectedBinaryChunk := some length } }
          []
      else
        engine.takeModern frame state [] true
    | .raw text => engine.takeModern frame state (Library.toUtf8 text) true
    | .encodedBytes bytes => engine.takeModern frame state bytes true
    | .dataChunk bytes last => engine.takeModern frame state bytes last

def observeMd5 (engine : DownloadEngine) (frame : Frame) (remaining : Int) (names : List String)
    (name : String) (digest : List UInt8) : Observed :=
  if ¬ frame.is "MD5" then
    .fail (.unexpectedFrame "MD5" frame.frameType)
  else
    match frame.bytesPayload with
    | .error e => .fail e
    | .ok expected =>
      if digest ≠ expected then
        .fail (.digestMismatch expected digest)
      else
        let names := if engine.directoryMode then names else pushUniqueName names name
        let next := engine.nextEntry remaining names
        .done (.fileFinished name digest :: next.2) next.1 [.string digest]

def observeFrame (engine : DownloadEngine) (frame : Frame) : Observed :=
  match engine.phase with
  | .awaitNum => engine.observeNum frame
  | .awaitName remaining names => engine.observeName frame remaining names
  | .awaitSize remaining names name => engine.observeSize frame remaining names name
  | .awaitData state =>
    if 2 ≤ engine.protocolVersion then engine.observeModernData frame state
    else engine.observeLegacyData frame state
  | .awaitMd5 remaining names name digest => engine.observeMd5 frame remaining names name digest
  | .completed _ =>
    .fail (.unexpectedFrame "no more frames after completion" frame.frameType)

end DownloadEngine

end NyaTerm.Trzsz

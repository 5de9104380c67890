import NyaTerm.Lib.Base64
import NyaTerm.Lib.Escape
import NyaTerm.Trzsz.Frame

-- The encoding of DATA: bytes may be compressed, and are then escaped or written in base64.
namespace NyaTerm.Trzsz

namespace Codec

-- What a call of the decompressor has read and written, and the number of bytes that it still expects.
structure Status (Decoder : Type) where
  read : Nat
  written : List UInt8
  remaining : Nat
  decoder : Decoder

end Codec

-- The compression library.
class Zstd where
  Encoder : Type
  newEncoder : Encoder
  -- The bytes that have been written once the input is flushed.
  write : Encoder → List UInt8 → List UInt8 × Encoder
  finish : Encoder → List UInt8
  Decoder : Type
  newDecoder : Decoder
  runOnBuffers : Decoder → (input : List UInt8) → (space : Nat) → Option (Codec.Status Decoder)
  -- A bound on the calls that read or write something.
  work : Decoder → (input : List UInt8) → Nat
  work_lt {decoder : Decoder} {input : List UInt8} {space : Nat} {status : Codec.Status Decoder} :
    runOnBuffers decoder input space = some status → ¬ (status.read = 0 ∧ status.written = []) →
    work status.decoder (input.drop status.read) < work decoder input

namespace Codec

variable [Zstd]

-- `escape_table`, as the two directions of one table.
def escapes (config : Config) (table : List (Nat × Nat)) : Escape.Table UInt8 where
  leader := 238
  code byte := (table.find? (·.1 = byte.toNat)).map fun entry => UInt8.ofNat entry.2
  item code := (table.find? (·.2 = code.toNat)).map fun entry => UInt8.ofNat entry.1
  active := !config.escapeChars.isEmpty

structure Encoder where
  zstd : Option Zstd.Encoder
  base64Tail : List UInt8
  escapes : Escape.Table UInt8
  binary : Bool

namespace Encoder

def start (config : Config) (table : List (Nat × Nat)) (compress : Bool) : Encoder where
  zstd := if compress then some Zstd.newEncoder else none
  base64Tail := []
  escapes := Codec.escapes config table
  binary := config.binary

def new (config : Config) (compress : Bool) : Except String Encoder :=
  config.escapeTable.map fun table => start config table compress

def compress (encoder : Encoder) (input : List UInt8) (finish : Bool) :
    List UInt8 × Option Zstd.Encoder :=
  match encoder.zstd with
  | none => (input, none)
  | some zstd =>
    let written := Zstd.write zstd input
    if finish then (written.1 ++ Zstd.finish written.2, none) else (written.1, some written.2)

def encode (encoder : Encoder) (input : List UInt8) (finish : Bool) : List UInt8 × Encoder :=
  let compressed := encoder.compress input finish
  if encoder.binary then
    (encoder.escapes.escape compressed.1, { encoder with zstd := compressed.2 })
  else
    let tail := encoder.base64Tail ++ compressed.1
    let length := if finish then tail.length else tail.length / 3 * 3
    (Base64.encode (tail.take length), { encoder with zstd := compressed.2, base64Tail := tail.drop length })

-- Data in chunks, with the last of which it is finished.
def encodeAll (encoder : Encoder) : List (List UInt8) → (last : List UInt8) → List UInt8
  | [], last => (encoder.encode last true).1
  | chunk :: chunks, last =>
    let encoded := encoder.encode chunk false
    encoded.1 ++ encoded.2.encodeAll chunks last

end Encoder

structure Decoder where
  zstd : Option Zstd.Decoder
  tail : List UInt8
  escapes : Escape.Table UInt8
  binary : Bool
  escaped : Bool
  frameComplete : Bool
  padded : Bool
  seenInput : Bool

namespace Decoder

def start (config : Config) (table : List (Nat × Nat)) (compress : Bool) : Decoder where
  zstd := if compress then some Zstd.newDecoder else none
  tail := []
  escapes := Codec.escapes config table
  binary := config.binary
  escaped := false
  frameComplete := !compress
  padded := false
  seenInput := false

def new (config : Config) (compress : Bool) : Except String Decoder :=
  config.escapeTable.map fun table => start config table compress

def unpack (decoder : Decoder) (input : List UInt8) : Except String (List UInt8 × Decoder) :=
  if decoder.binary then
    let outcome := Transducer.run decoder.escapes.unescape decoder.escaped input
    if outcome.stopped then .error "unknown trzsz escape code"
    else .ok (outcome.output, { decoder with escaped := outcome.state })
  else if decoder.padded ∧ input ≠ [] then
    .error "data after base64 padding"
  else
    let tail := decoder.tail ++ input
    let length := tail.length / 4 * 4
    match Base64.decode (tail.take length) with
    | none => .error "invalid trzsz base64 stream"
    | some bytes => .ok (bytes, { decoder with
        tail := tail.drop length
        padded := decoder.padded || Base64.pad ∈ tail.take length })

def outputSize : Nat := 32 * 1024

-- The loop around the decompressor, with what is handed over to the sink. Every round but the last
-- reads or writes something.
def inflate : (rounds : Nat) → Zstd.Decoder → (input : List UInt8) →
    List (List UInt8) × Except String (Zstd.Decoder × Bool)
  | 0, _, _ => ([], .error "stalled trzsz decoder")
  | rounds + 1, zstd, input =>
    match Zstd.runOnBuffers zstd input outputSize with
    | none => ([], .error "invalid trzsz zstd stream")
    | some status =>
      let rest := input.drop status.read
      if rest = [] ∧ (status.written.length < outputSize ∨ status.remaining = 0) then
        ([status.written], .ok (status.decoder, status.remaining = 0))
      else if status.read = 0 ∧ status.written = [] then
        ([status.written], .error "stalled trzsz decoder")
      else
        let later := inflate rounds status.decoder rest
        (status.written :: later.1, later.2)

def decompress (decoder : Decoder) (bytes : List UInt8) :
    List (List UInt8) × Except String Decoder :=
  match decoder.zstd with
  | none => ([bytes], .ok decoder)
  | some zstd =>
    if decoder.frameComplete ∧ bytes ≠ [] then
      ([], .error "data after zstd frame")
    else if bytes ≠ [] ∨ decoder.frameComplete = false then
      match inflate (Zstd.work zstd bytes + 1) zstd bytes with
      | (output, .error e) => (output, .error e)
      | (output, .ok (zstd, isComplete)) =>
        (output, .ok { decoder with zstd := some zstd, frameComplete := isComplete })
    else
      ([], .ok decoder)

def decode (decoder : Decoder) (input : List UInt8) (finish : Bool) :
    List (List UInt8) × Except String Decoder :=
  if finish ∧ input = [] ∧ decoder.seenInput = false then
    ([], .ok decoder)
  else
    match { decoder with seenInput := decoder.seenInput || input ≠ [] }.unpack input with
    | .error e => ([], .error e)
    | .ok (bytes, decoder) =>
      match decoder.decompress bytes with
      | (output, .error e) => (output, .error e)
      | (output, .ok decoder) =>
        if finish ∧ (decoder.tail ≠ [] ∨ decoder.escaped ∨ decoder.frameComplete = false) then
          (output, .error "truncated trzsz data stream")
        else
          (output, .ok decoder)

-- A stream in pieces, with the last of which it is finished.
def decodeAll (decoder : Decoder) : List (List UInt8) → (last : List UInt8) →
    List (List UInt8) × Except String Decoder
  | [], last => decoder.decode last true
  | piece :: pieces, last =>
    match decoder.decode piece false with
    | (output, .error e) => (output, .error e)
    | (output, .ok decoder) =>
      let later := decoder.decodeAll pieces last
      (output ++ later.1, later.2)

end Decoder

def encodeStream (config : Config) (compress : Bool) (chunks : List (List UInt8)) (last : List UInt8) :
    Except String (List UInt8) :=
  (Encoder.new config compress).map fun encoder => encoder.encodeAll chunks last

def decodeStream (config : Config) (compress : Bool) (pieces : List (List UInt8)) (last : List UInt8) :
    List (List UInt8) × Except String Decoder :=
  match Decoder.new config compress with
  | .error e => ([], .error e)
  | .ok decoder => decoder.decodeAll pieces last

end Codec

namespace Zstd

variable [Zstd]

-- The frame that an encoder makes of data in chunks.
def frame (encoder : Encoder) : List (List UInt8) → (last : List UInt8) → List UInt8
  | [], last => (write encoder last).1 ++ finish (write encoder last).2
  | chunk :: chunks, last => (write encoder chunk).1 ++ frame (write encoder chunk).2 chunks last

-- The decoders that some part of a frame leads to, with what they have read and written.
inductive Follows (frame : List UInt8) : Decoder → (read written : List UInt8) → Prop
  | new : Follows frame newDecoder [] []
  | run {decoder : Decoder} {read written input later : List UInt8} {space : Nat}
    {status : Codec.Status Decoder} : Follows frame decoder read written →
    read ++ input ++ later = frame → 0 < space → runOnBuffers decoder input space = some status →
    Follows frame status.decoder (read ++ input.take status.read) (written ++ status.written)

-- A call for a frame that is not complete, with some of its bytes.
structure Proceeds (frame data : List UInt8) (read written input : List UInt8) (space : Nat)
    (status : Codec.Status Decoder) : Prop where
  within : status.read ≤ input.length
  -- Nothing is left over unless the output is full.
  greedy : status.written.length < space → status.read = input.length
  flushed : status.written.length < space → read ++ input = frame → written ++ status.written = data
  complete : status.remaining = 0 ↔
    read ++ input.take status.read = frame ∧ written ++ status.written = data

-- Compression is lossless.
structure Lossless : Prop where
  frame_ne_nil (chunks : List (List UInt8)) (last : List UInt8) : frame newEncoder chunks last ≠ []
  proceeds {chunks : List (List UInt8)} {last : List UInt8} {decoder : Decoder}
    {read written input later : List UInt8} {space : Nat} :
    Follows (frame newEncoder chunks last) decoder read written →
    read ++ input ++ later = frame newEncoder chunks last → 0 < space →
    ¬ (read = frame newEncoder chunks last ∧ written = chunks.flatten ++ last) →
    ∃ status, runOnBuffers decoder input space = some status ∧
      Proceeds (frame newEncoder chunks last) (chunks.flatten ++ last) read written input space status

end Zstd

namespace Codec

variable [Zstd]

-- A stream that is cut off inside a compressed frame or an escape.
inductive Truncated (config : Config) (data wire : List UInt8) : (compress : Bool) → List UInt8 → Prop
  | frame {first rest : List UInt8} : first ++ rest = wire → first ≠ [] → rest ≠ [] →
    Truncated config data wire true first
  | escape {table : List (Nat × Nat)} {before after : List UInt8} {byte code : UInt8} :
    config.binary = true → config.escapeTable = .ok table → data = before ++ byte :: after →
    (escapes config table).code byte = some code →
    Truncated config data wire false ((escapes config table).escape before ++ [238])

-- However data and stream are divided, the data arrives, and a stream that is cut off is rejected.
def RoundTrips (config : Config) : Prop :=
  ∀ compress chunks last, ∃ wire, encodeStream config compress chunks last = .ok wire ∧
    (∀ pieces final, pieces.flatten ++ final = wire →
      ∃ output decoder, decodeStream config compress pieces final = (output, .ok decoder) ∧
        output.flatten = chunks.flatten ++ last) ∧
    ∀ pieces final, Truncated config (chunks.flatten ++ last) wire compress (pieces.flatten ++ final) →
      ∃ output, decodeStream config compress pieces final =
        (output, .error "truncated trzsz data stream")

-- The leader of an escape is in the table.
def EscapesLeader (config : Config) : Prop :=
  ∃ mapping ∈ config.escapeChars, mapping.1.toList = [Char.ofNat 238]

end Codec

end NyaTerm.Trzsz

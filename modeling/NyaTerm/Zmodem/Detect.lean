import Mathlib.Data.List.Basic

-- The detection of the start of a ZMODEM transfer in the output of a session.
namespace NyaTerm.Zmodem.Detect

abbrev Bytes := List UInt8

def zpad : UInt8 := 0x2a
def zdle : UInt8 := 0x18
def zhex : UInt8 := 0x42
def zbin : UInt8 := 0x41
def zbin32 : UInt8 := 0x43
def headerLen : Nat := 4
-- In milliseconds.
def asteriskIdleTimeout : Nat := 50
def headerIdleTimeout : Nat := 1000

def lineFeed : UInt8 := 10
def carriageReturn : UInt8 := 13

inductive Direction
  | download
  | upload
  deriving DecidableEq

def hexDigit (b : UInt8) : Option UInt8 :=
  if 48 ≤ b ∧ b ≤ 57 then some (b - 48)
  else if 97 ≤ b ∧ b ≤ 102 then some (b - 97 + 10)
  else if 65 ≤ b ∧ b ≤ 70 then some (b - 65 + 10)
  else none

def parseHexFrameType : Bytes → Option UInt8
  | high :: low :: _ => do some ((← hexDigit high) <<< 4 ||| (← hexDigit low))
  | _ => none

def isKind (kind : UInt8) : Bool :=
  kind = zhex ∨ kind = zbin ∨ kind = zbin32

-- The header that the bytes start with.
def headerAt : Bytes → Option Direction
  | first :: second :: third :: kind :: remaining =>
    if first = zpad ∧ second = zpad ∧ third = zdle ∧ isKind kind then
      let frameType := if kind = zhex then parseHexFrameType remaining else remaining.head?
      if frameType = some 0 then some .download
      else if frameType = some 1 then some .upload
      else none
    else none
  | _ => none

-- The first header in the bytes.
def detectZmodemStart : Bytes → Option (Direction × Nat)
  | [] => none
  | b :: data =>
    match headerAt (b :: data) with
    | some direction => some (direction, 0)
    | none => (detectZmodemStart data).map fun found => (found.1, found.2 + 1)

def isPossibleZmodemPrefix (data : Bytes) : Bool :=
  data = [] ∨ data = [zpad] ∨ data = [zpad, zpad] ∨ data = [zpad, zpad, zdle] ∨
    data.length = 4 ∧ data.take 3 = [zpad, zpad, zdle] ∧ (data.drop 3).all isKind ∨
    data.length = 5 ∧ data.take 4 = [zpad, zpad, zdle, zhex] ∧
      (data.drop 4).all fun b => (hexDigit b).isSome

def endsAtLineStart (data : Bytes) : Bool :=
  data.getLast? = some lineFeed ∨ data.getLast? = some carriageReturn

def isLineStart (data : Bytes) (start : Nat) (dataStartsAtLineStart : Bool) : Bool :=
  if start = 0 then dataStartsAtLineStart else endsAtLineStart (data.take start)

-- z waiting to receive.
def receivePrompt : Bytes :=
  [122, 32, 119, 97, 105, 116, 105, 110, 103, 32, 116, 111, 32, 114, 101, 99, 101, 105, 118, 101, 46]

def hasRzReceivePromptBefore (data : Bytes) (start : Nat) : Bool :=
  (data.take start).tails.any receivePrompt.isPrefixOf

def bannerCandidates : List Bytes :=
  [zdle :: receivePrompt ++ [carriageReturn, lineFeed], zdle :: receivePrompt ++ [lineFeed],
    receivePrompt ++ [carriageReturn, lineFeed], receivePrompt ++ [lineFeed]]

-- The lengths from the largest one down to one.
def lengthsDown (max : Nat) : List Nat :=
  (List.range max).reverse.map (· + 1)

-- Where a banner starts that may go on behind the end.
def rzReceiveBannerPrefixStart (data : Bytes) (stop : Nat) (dataStartsAtLineStart : Bool) : Option Nat :=
  let text := data.take stop
  bannerCandidates.findSome? fun candidate =>
    ((lengthsDown (min text.length candidate.length)).find? fun len =>
      text.drop (text.length - len) = candidate.take len &&
        isLineStart data (text.length - len) dataStartsAtLineStart).map (text.length - ·)

-- A suffix that may become a header.
def isRetained (data : Bytes) (dataStartsAtLineStart : Bool) (len : Nat) : Bool :=
  let start := data.length - len
  isPossibleZmodemPrefix (data.drop start) &&
    (zdle ∈ data.drop start || isLineStart data start dataStartsAtLineStart ||
      hasRzReceivePromptBefore data start)

def possibleHeaderStart (data : Bytes) (dataStartsAtLineStart : Bool) : Nat :=
  match (lengthsDown (min data.length (headerLen + 1))).find? (isRetained data dataStartsAtLineStart) with
  | some len => data.length - len
  | none => data.length

def retainedPrefixStart (data : Bytes) (dataStartsAtLineStart : Bool) : Nat :=
  let keepFrom := possibleHeaderStart data dataStartsAtLineStart
  match rzReceiveBannerPrefixStart data keepFrom dataStartsAtLineStart with
  | some bannerStart => min keepFrom bannerStart
  | none => keepFrom

-- The banner with the line ends that it may have.
def banners : List Bytes :=
  [zdle :: receivePrompt ++ [carriageReturn, lineFeed], zdle :: receivePrompt ++ [lineFeed],
    zdle :: receivePrompt ++ [carriageReturn], zdle :: receivePrompt,
    receivePrompt ++ [carriageReturn, lineFeed], receivePrompt ++ [lineFeed],
    receivePrompt ++ [carriageReturn], receivePrompt]

-- rz -e -y, rz -e and rz, with the line ends that they may have.
def echoes : List Bytes :=
  [[114, 122, 32, 45, 101, 32, 45, 121, 13, 10], [114, 122, 32, 45, 101, 32, 45, 121, 13],
    [114, 122, 32, 45, 101, 32, 45, 121], [114, 122, 32, 45, 101, 13, 10], [114, 122, 32, 45, 101, 13],
    [114, 122, 32, 45, 101], [114, 122, 13, 10], [114, 122, 13], [114, 122]]

-- The data without the first of the patterns that they end with.
def stripSuffix (patterns : List Bytes) (data : Bytes) : Bytes :=
  match patterns.find? (·.isSuffixOf data) with
  | some pattern => data.take (data.length - pattern.length)
  | none => data

def stripRzEcho (data : Bytes) : Bytes :=
  stripSuffix echoes (stripSuffix banners data)

structure Detector where
  pending : Bytes
  pendingUpdatedAt : Option Nat
  pendingStartsAtLineStart : Bool
  deriving DecidableEq

inductive Result
  | noMatch (passthrough : Bytes)
  | detected (direction : Direction) (passthrough initialBytes : Bytes)
  deriving DecidableEq

def outputMayContainTrigger (data : Bytes) : Bool :=
  zdle ∈ data ∨ [zpad].isSuffixOf data ∨ [zpad, zpad].isSuffixOf data ∨ [zpad, zpad, zdle].isSuffixOf data

namespace Detector

def new : Detector :=
  ⟨[], none, true⟩

def isIdle (detector : Detector) : Bool :=
  detector.pending = []

def feed (detector : Detector) (data : Bytes) (now : Nat) : Result × Detector :=
  let pending := detector.pending ++ data
  match detectZmodemStart pending with
  | some (direction, start) =>
    let passthrough := pending.take start
    (.detected direction (if direction = .upload then stripRzEcho passthrough else passthrough)
      (pending.drop start), new)
  | none =>
    let keepFrom := retainedPrefixStart pending detector.pendingStartsAtLineStart
    (.noMatch (pending.take keepFrom),
      { pending := pending.drop keepFrom
        pendingUpdatedAt :=
          if pending.drop keepFrom = [] then none
          else if data = [] then detector.pendingUpdatedAt else some now
        pendingStartsAtLineStart :=
          if keepFrom = 0 then detector.pendingStartsAtLineStart
          else endsAtLineStart (pending.take keepFrom) })

def flushPendingIfIdle (detector : Detector) (now : Nat) : Bytes × Detector :=
  match detector.pendingUpdatedAt with
  | none => ([], detector)
  | some updatedAt =>
    let timeout := if zdle ∈ detector.pending then headerIdleTimeout else asteriskIdleTimeout
    if now - updatedAt < timeout then ([], detector)
    else (detector.pending, ⟨[], none, endsAtLineStart detector.pending⟩)

end Detector

-- What happens to a detector.
inductive Event
  | chunk (data : Bytes) (now : Nat)
  | flush (now : Nat)

namespace Detector

def react (detector : Detector) : Event → Result × Detector
  | .chunk data now => detector.feed data now
  | .flush now =>
    (.noMatch (detector.flushPendingIfIdle now).1, (detector.flushPendingIfIdle now).2)

def run (detector : Detector) : List Event → List Result × Detector
  | [] => ([], detector)
  | event :: events =>
    let later := (detector.react event).2.run events
    ((detector.react event).1 :: later.1, later.2)

-- Chunks are fed until a transfer starts: what has been shown before, the transfer and the chunks
-- behind it.
def scan (detector : Detector) :
    List (Bytes × Nat) → Bytes × Option (Direction × Bytes × Bytes) × List (Bytes × Nat)
  | [] => ([], none, [])
  | chunk :: chunks =>
    match detector.feed chunk.1 chunk.2 with
    | (.noMatch passthrough, detector) =>
      let later := detector.scan chunks
      (passthrough ++ later.1, later.2)
    | (.detected direction passthrough initialBytes, _) =>
      ([], some (direction, passthrough, initialBytes), chunks)

-- A chunk passes around an idle detector if it shows no trigger.
def bypasses (detector : Detector) (data : Bytes) : Bool :=
  detector.isIdle ∧ ¬ outputMayContainTrigger data

def reactOrBypass (detector : Detector) : Event → Result × Detector
  | .chunk data now =>
    if detector.bypasses data then (.noMatch data, detector) else detector.feed data now
  | .flush now => detector.react (.flush now)

def runBypassing (detector : Detector) : List Event → List Result × Detector
  | [] => ([], detector)
  | event :: events =>
    let later := (detector.reactOrBypass event).2.runBypassing events
    ((detector.reactOrBypass event).1 :: later.1, later.2)

end Detector

-- The bytes that are visible, and the transfers with their initial bytes.
def Result.visible : Result → Bytes
  | .noMatch passthrough => passthrough
  | .detected _ passthrough _ => passthrough

def Result.transfer : Result → Option (Direction × Bytes)
  | .noMatch _ => none
  | .detected direction _ initialBytes => some (direction, initialBytes)

def observe (results : List Result) : Bytes × List (Direction × Bytes) :=
  (results.flatMap Result.visible, results.filterMap Result.transfer)

end NyaTerm.Zmodem.Detect

import Mathlib.Data.List.Infix
import NyaTerm.Trzsz.Frame

-- The detector that looks for triggers of a transfer in the output of a terminal.
namespace NyaTerm.Trzsz

abbrev Bytes := List UInt8

def ascii (text : String) : Bytes :=
  text.toList.map fun c => c.toNat.toUInt8

def asciiText (bytes : Bytes) : String :=
  String.ofList (bytes.map fun b => Char.ofNat b.toNat)

-- The beginning of a trigger.
def marker : Bytes := ascii "::TRZSZ:TRANSFER:"

def maxTriggerLength : Nat := 96

def staleMarkers : List Bytes :=
  [ascii "#CFG:", ascii "Saved", ascii "Cancelled", ascii "Stopped", ascii "Interrupted"]

def colon : UInt8 := 58

def period : UInt8 := 46

def isDigit (b : UInt8) : Bool :=
  48 ≤ b.toNat ∧ b.toNat ≤ 57

inductive TriggerMode
  | send
  | receive
  | directory
  deriving DecidableEq

structure Trigger where
  mode : TriggerMode
  version : String
  uniqueId : Option String
  remoteIsWindows : Bool
  tunnelPort : Option Nat
  raw : Bytes
  deriving DecidableEq

inductive ParseTrigger
  | detected (trigger : Trigger) (length : Nat)
  | incomplete
  | noMatch
  deriving DecidableEq

-- A part of a trigger with the bytes behind it. What is cut off may still become one.
inductive Parsed (α : Type)
  | ok (value : α) (rest : Bytes)
  | incomplete
  | noMatch

namespace Parsed

def bind {α β : Type} (x : Parsed α) (f : α → Bytes → Parsed β) : Parsed β :=
  match x with
  | .ok value rest => f value rest
  | .incomplete => .incomplete
  | .noMatch => .noMatch

def consumeByte (expected : UInt8) : Bytes → Parsed Unit
  | [] => .incomplete
  | b :: rest => if b = expected then .ok () rest else .noMatch

def consumeDigits (data : Bytes) : Parsed Bytes :=
  if data.takeWhile isDigit ≠ [] then .ok (data.takeWhile isDigit) (data.dropWhile isDigit)
  else if data = [] then .incomplete
  else .noMatch

def mode : Bytes → Parsed TriggerMode
  | [] => .incomplete
  | b :: rest =>
    if b = 83 then .ok .send rest
    else if b = 82 then .ok .receive rest
    else if b = 68 then .ok .directory rest
    else .noMatch

def version (data : Bytes) : Parsed Bytes :=
  (consumeDigits data).bind fun major data =>
    (consumeByte period data).bind fun _ data =>
      (consumeDigits data).bind fun minor data =>
        (consumeByte period data).bind fun _ data =>
          (consumeDigits data).bind fun patch data =>
            .ok (major ++ period :: minor ++ period :: patch) data

-- A colon without a number behind it is left where it is.
def optionalNumber : Bytes → Parsed (Option Bytes)
  | [] => .ok none []
  | [b] => if b = colon then .incomplete else .ok none [b]
  | b :: c :: rest =>
    if b = colon ∧ isDigit c then
      .ok (some ((c :: rest).takeWhile isDigit)) ((c :: rest).dropWhile isDigit)
    else
      .ok none (b :: c :: rest)

end Parsed

def isWindowsServerUniqueId (uniqueId : Bytes) : Bool :=
  uniqueId = ascii "1" ∨ uniqueId.length = 13 ∧ ascii "10" <:+ uniqueId

-- `parse::<u16>`, on digits.
def parsePort (digits : Bytes) : Option Nat :=
  let value := digits.foldl (fun n b => 10 * n + (b.toNat - 48)) 0
  if value < UInt16.size then some value else none

-- What stands far behind the marker shows that the trigger is an old one.
def isStale (data : Bytes) : Bool :=
  40 < data.length ∧ ∃ stale ∈ staleMarkers, stale <:+: data.drop 40

-- The fields of a trigger, behind the marker.
def parseFields (data : Bytes) : Parsed (TriggerMode × Bytes × Option Bytes × Option Bytes) :=
  (Parsed.mode data).bind fun mode data =>
    (Parsed.consumeByte colon data).bind fun _ data =>
      (Parsed.version data).bind fun version data =>
        (Parsed.optionalNumber data).bind fun uniqueId data =>
          (Parsed.optionalNumber data).bind fun port data =>
            .ok (mode, version, uniqueId, port) data

def parseTrigger (data : Bytes) : ParseTrigger :=
  if data.length < marker.length then
    if data <+: marker then .incomplete else .noMatch
  else if ¬ marker <+: data then
    .noMatch
  else if isStale data then
    .noMatch
  else
    match parseFields (data.drop marker.length) with
    | .incomplete => .incomplete
    | .noMatch => .noMatch
    | .ok (mode, version, uniqueId, port) rest =>
      let length := data.length - rest.length
      .detected
        { mode, version := asciiText version, uniqueId := uniqueId.map asciiText,
          remoteIsWindows := uniqueId.any isWindowsServerUniqueId,
          tunnelPort := port.bind parsePort, raw := data.take length }
        length

structure Detector where
  pending : Bytes
  -- When pending bytes arrived, in milliseconds.
  updatedAt : Option Nat
  -- The identifiers that were seen, with their order.
  seen : List (String × Nat)
  deriving DecidableEq

inductive DetectResult
  | noMatch (passthrough : Bytes)
  | detected (trigger : Trigger) (passthrough remaining : Bytes)

inductive OutputEvent
  | passthrough (bytes : Bytes)
  | trigger (trigger : Trigger)
  deriving DecidableEq

def OutputEvent.bytes : OutputEvent → Bytes
  | .passthrough bytes => bytes
  | .trigger found => found.raw

-- The output that events stand for.
def output (events : List OutputEvent) : Bytes :=
  events.flatMap OutputEvent.bytes

-- Whether the program was built for Windows.
variable (windows : Bool)

def shouldTrack (uniqueId : String) : Bool :=
  6 < uniqueId.length ∧ (windows ∨ uniqueId.length ≠ 13 ∨ ¬ ['0', '0'] <:+ uniqueId.toList)

def trackedId (trigger : Trigger) : Option String :=
  trigger.uniqueId.filter (shouldTrack windows)

def isRepeated (seen : List (String × Nat)) (trigger : Trigger) : Bool :=
  (trackedId windows trigger).any fun uniqueId => seen.any (·.1 = uniqueId)

def remember (seen : List (String × Nat)) (trigger : Trigger) : List (String × Nat) :=
  match trackedId windows trigger with
  | none => seen
  | some uniqueId =>
    let kept :=
      if 100 < seen.length then
        (seen.filter (50 ≤ ·.2)).map fun entry => (entry.1, entry.2 - 50)
      else
        seen
    kept ++ [(uniqueId, kept.length)]

-- A trigger that is not repeated is remembered when it is checked.
def observe (seen : List (String × Nat)) (trigger : Trigger) : List (String × Nat) :=
  if isRepeated windows seen trigger then seen else remember windows seen trigger

-- The first trigger that is not repeated, with the range of its bytes. Bytes of repeated ones are
-- skipped.
def search (seen : List (String × Nat)) (start : Nat) :
    (skip : Nat) → Bytes → Option (Trigger × Nat × Nat)
  | _, [] => none
  | skip + 1, _ :: data => search seen (start + 1) skip data
  | 0, b :: data =>
    match (if marker <+: b :: data then parseTrigger (b :: data) else .noMatch) with
    | .detected trigger length =>
      if isRepeated windows seen trigger then search seen (start + 1) (length - 1) data
      else some (trigger, start, start + length)
    | _ => search seen (start + 1) 0 data

-- The longest end of the data that may become a trigger.
def retainedStart (data : Bytes) : Nat :=
  let lengths := (List.range (min data.length maxTriggerLength)).reverse.map (· + 1)
  match lengths.find? fun length =>
      let rest := data.drop (data.length - length)
      rest <+: marker ∨ marker <+: rest ∧ parseTrigger rest = .incomplete with
  | some length => data.length - length
  | none => data.length

namespace Detector

def new : Detector :=
  ⟨[], none, []⟩

def isIdle (detector : Detector) : Bool :=
  detector.pending = []

def outputMayContainTrigger (data : Bytes) : Bool :=
  marker <:+: data ∨ ∃ length ∈ List.range' 1 (marker.length - 1),
    length ≤ data.length ∧ data.drop (data.length - length) <+: marker

def feedAt (detector : Detector) (data : Bytes) (now : Nat) : DetectResult × Detector :=
  let pending := detector.pending ++ data
  let updatedAt := if data = [] then detector.updatedAt else some now
  match search windows detector.seen 0 0 pending with
  | some (trigger, start, stop) =>
    (.detected trigger (pending.take start) (pending.drop stop),
      ⟨[], none, remember windows detector.seen trigger⟩)
  | none =>
    let keepFrom := retainedStart pending
    let kept := pending.drop keepFrom
    (.noMatch (pending.take keepFrom),
      ⟨kept, if kept = [] then none else updatedAt, detector.seen⟩)

def passthrough (bytes : Bytes) : List OutputEvent :=
  if bytes = [] then [] else [.passthrough bytes]

-- Each round consumes a trigger, so that there are no more rounds than bytes. The clock is read in
-- each of them.
def scanRounds (clock : Nat → Nat) : (rounds : Nat) → Detector → Bytes → List OutputEvent × Detector
  | 0, detector, _ => ([], detector)
  | rounds + 1, detector, data =>
    match detector.feedAt windows data (clock rounds) with
    | (.noMatch bytes, next) => (passthrough bytes, next)
    | (.detected trigger bytes remaining, next) =>
      if remaining = [] then
        (passthrough bytes ++ [.trigger trigger], next)
      else
        let later := scanRounds clock rounds next remaining
        (passthrough bytes ++ .trigger trigger :: later.1, later.2)

def scanTerminalOutput (detector : Detector) (clock : Nat → Nat) (data : Bytes) :
    List OutputEvent × Detector :=
  scanRounds windows clock (detector.pending.length + data.length + 1) detector data

def flushPendingIfIdle (detector : Detector) (now : Nat) : Bytes × Detector :=
  match detector.updatedAt with
  | none => ([], detector)
  | some updatedAt =>
    let timeout := if detector.pending = [colon] ∨ detector.pending = [colon, colon] then 50 else 1000
    if now - updatedAt < timeout then ([], detector)
    else (detector.pending, { detector with pending := [], updatedAt := none })

-- What a terminal does with its detector.
inductive Operation
  | scan (clock : Nat → Nat) (data : Bytes)
  | flush (now : Nat)

def Operation.input : Operation → Bytes
  | .scan _ data => data
  | .flush _ => []

def perform (detector : Detector) : Operation → List OutputEvent × Detector
  | .scan clock data => detector.scanTerminalOutput windows clock data
  | .flush now =>
    (passthrough (detector.flushPendingIfIdle now).1, (detector.flushPendingIfIdle now).2)

def run (detector : Detector) : List Operation → List OutputEvent × Detector
  | [] => ([], detector)
  | operation :: rest =>
    let step := detector.perform windows operation
    let later := run step.2 rest
    (step.1 ++ later.1, later.2)

end Detector

end NyaTerm.Trzsz

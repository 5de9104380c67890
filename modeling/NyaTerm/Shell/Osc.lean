import NyaTerm.Lib.Base64
import NyaTerm.Lib.Mealy

-- Shells report directories, commands and their readiness in private OSC sequences, which are taken
-- out of the output.
namespace NyaTerm.Shell.Osc

abbrev Bytes := List UInt8

def bel : UInt8 := 7
def esc : UInt8 := 27
def bracket : UInt8 := 93
def backslash : UInt8 := 92

def introducer : Bytes := [esc, bracket]
def stringTerminator : Bytes := [esc, backslash]

def maxOscBuf : Nat := 64 * 1024

def ascii (text : List Char) : Bytes :=
  text.map fun c => UInt8.ofNat c.toNat

def readyMarkerPrefix : Bytes :=
  ascii ['7', '7', '7', '7', ';', 'N', 'y', 'a', 'T', 'e', 'r', 'm', 'R', 'e', 'a', 'd', 'y', ':']

def shellMarkerPrefix : Bytes :=
  ascii ['7', '7', '7', '7', ';', 'N', 'y', 'a', 'T', 'e', 'r', 'm', 'S', 'h', 'e', 'l', 'l', ':']

def commandMarkerPrefix : Bytes :=
  ascii ['7', '7', '7', '7', ';', 'N', 'y', 'a', 'T', 'e', 'r', 'm', 'C', 'o', 'm', 'm', 'a', 'n', 'd', ':']

def legacyReadyMarkerPrefix : Bytes :=
  ascii ['7', '7', '7', '7', ';', 'D', 'f', 'l', 'y', 'R', 'e', 'a', 'd', 'y', ':']

def legacyCommandMarkerPrefix : Bytes :=
  ascii ['7', '7', '7', '7', ';', 'D', 'f', 'l', 'y', 'C', 'o', 'm', 'm', 'a', 'n', 'd', ':']

def findSubsequence (needle : Bytes) : Bytes → Option Nat
  | [] => if needle = [] then some 0 else none
  | b :: bs => if needle.isPrefixOf (b :: bs) then some 0 else (findSubsequence needle bs).map (· + 1)

-- The place of a terminator and its length.
def findOscTerminator (bytes : Bytes) : Option (Nat × Nat) :=
  ((bytes.idxOf? bel).map (·, 1)).or
    ((findSubsequence stringTerminator (bytes.drop 2)).map fun index => (index + 2, 2))

-- What follows one of the markers.
def stripMarker (marker bytes : Bytes) : Option Bytes :=
  if marker.isPrefixOf bytes then some (bytes.drop marker.length) else none

def utf8 (bytes : Bytes) : Option String :=
  String.fromUTF8? (ByteArray.mk bytes.toArray)

def hexValue (b : UInt8) : Option UInt8 :=
  if 48 ≤ b ∧ b ≤ 57 then some (b - 48)
  else if 97 ≤ b ∧ b ≤ 102 then some (b - 97 + 10)
  else if 65 ≤ b ∧ b ≤ 70 then some (b - 65 + 10)
  else none

-- A percent sign without two digits behind it stands for itself.
def percentDecode : Bytes → Bytes
  | 37 :: high :: low :: bytes =>
    match hexValue high, hexValue low with
    | some h, some l => (h * 16 + l) :: percentDecode bytes
    | _, _ => 37 :: percentDecode (high :: low :: bytes)
  | b :: bytes => b :: percentDecode bytes
  | [] => []
termination_by bytes => bytes.length

def percentDecodePath (path : Bytes) : Option String :=
  (utf8 (percentDecode path)).or (utf8 path)

-- The path of a file URI, behind its host.
def parseOsc7Payload (payload : Bytes) : Option String := do
  let _ ← utf8 payload
  let afterScheme ← stripMarker (ascii ['f', 'i', 'l', 'e', ':', '/', '/']) payload
  let path := afterScheme.dropWhile (· ≠ 47)
  if path = [] then none else percentDecodePath path

structure ShellIdentity where
  program : String
  user : String
  deriving DecidableEq

def isControl (c : Char) : Bool :=
  c.toNat < 32 ∨ 127 ≤ c.toNat ∧ c.toNat < 160

def parseShellIdentity (payload : Bytes) : Option ShellIdentity :=
  if 4096 < payload.length ∨ 58 ∉ payload then none
  else do
    let _ ← utf8 payload
    let program ← (Base64.decode (payload.takeWhile (· ≠ 58))).bind utf8
    let user ← (Base64.decode ((payload.dropWhile (· ≠ 58)).drop 1)).bind utf8
    if program = "" ∨ user = "" ∨ program.any isControl ∨ user.any isControl then none
    else some ⟨program, user⟩

def parseCommandMarker (inner : Bytes) : Option String := do
  let payload ← (stripMarker commandMarkerPrefix inner).or (stripMarker legacyCommandMarkerPrefix inner)
  let command ← (Base64.decode payload).bind utf8
  if command = "" then none else some command

-- The markers of the session.
structure Markers where
  readyInner : Bytes
  legacyReadyInner : Option Bytes

def markerInner (marker : Bytes) : Bytes :=
  match stripMarker introducer marker with
  | none => marker
  | some rest =>
    if [bel].isSuffixOf rest then rest.dropLast
    else if stringTerminator.isSuffixOf rest then rest.take (rest.length - 2)
    else rest

def Markers.new (readyMarker : Bytes) (legacyReadyMarker : Option Bytes) : Markers :=
  ⟨markerInner readyMarker, legacyReadyMarker.map markerInner⟩

def Markers.isCurrentReadyMarker (markers : Markers) (inner : Bytes) : Bool :=
  inner = markers.readyInner ∨ markers.legacyReadyInner = some inner

-- What a sequence tells.
inductive Report
  | cwd (path : Option String)
  | ready
  | foreign
  | shell (identity : Option ShellIdentity)
  | command (command : String)
  deriving DecidableEq

-- There is none for the sequences of others, which stay in the output.
def Markers.report (markers : Markers) (inner : Bytes) : Option Report :=
  match stripMarker (ascii ['7', ';']) inner with
  | some payload => some (.cwd (parseOsc7Payload payload))
  | none =>
    if markers.isCurrentReadyMarker inner then some .ready
    else if readyMarkerPrefix.isPrefixOf inner ∨ legacyReadyMarkerPrefix.isPrefixOf inner then
      some .foreign
    else
      match stripMarker shellMarkerPrefix inner with
      | some payload => some (.shell (parseShellIdentity payload))
      | none => (parseCommandMarker inner).map .command

-- The output as it is taken apart. What exceeds the buffer is visible, but does not count as output
-- behind a ready marker.
inductive Piece
  | byte (b : UInt8)
  | sequence (inner terminator : Bytes)
  | overflow (b : UInt8)
  deriving DecidableEq

structure OscResult where
  visible : Bytes
  visibleAfterReady : Bytes
  cwdPaths : List String
  ready : Bool
  acceptedCommands : List String
  shellIdentities : List ShellIdentity

namespace OscResult

def empty : OscResult :=
  ⟨[], [], [], false, [], []⟩

def extend (result : OscResult) (bytes : Bytes) : OscResult :=
  { result with
    visible := result.visible ++ bytes
    visibleAfterReady :=
      if result.ready then result.visibleAfterReady ++ bytes else result.visibleAfterReady }

def addReport (result : OscResult) : Report → OscResult
  | .cwd path => { result with cwdPaths := result.cwdPaths ++ path.toList }
  | .ready => { result with ready := true }
  | .foreign => result
  | .shell identity => { result with shellIdentities := result.shellIdentities ++ identity.toList }
  | .command command => { result with acceptedCommands := result.acceptedCommands ++ [command] }

def add (markers : Markers) (result : OscResult) : Piece → OscResult
  | .byte b => result.extend [b]
  | .overflow b => { result with visible := result.visible ++ [b] }
  | .sequence inner terminator =>
    match markers.report inner with
    | some report => result.addReport report
    | none => result.extend (introducer ++ inner ++ terminator)

end OscResult

-- The rounds of the loop, each of which takes a sequence off the buffer.
def drain : (rounds : Nat) → Bytes → List Piece × Bytes
  | 0, buf => ([], buf)
  | rounds + 1, buf =>
    match findSubsequence introducer buf with
    | none => (buf.map .byte, [])
    | some escPos =>
      let rest := buf.drop escPos
      match findOscTerminator rest with
      | none =>
        if maxOscBuf < rest.length then
          ((buf.take escPos).map .byte ++ rest.map .overflow, [])
        else
          ((buf.take escPos).map .byte, rest)
      | some (endIdx, termLen) =>
        let later := drain rounds (rest.drop (endIdx + termLen))
        ((buf.take escPos).map .byte ++
          .sequence ((rest.take endIdx).drop 2) ((rest.drop endIdx).take termLen) :: later.1, later.2)

-- The buffer is the state of the stripper. There are fewer sequences than bytes.
def pieces (buf chunk : Bytes) : List Piece × Bytes :=
  if maxOscBuf < (buf ++ chunk).length ∧ findSubsequence introducer (buf ++ chunk) = none then
    ((buf ++ chunk).map .byte, [])
  else
    drain ((buf ++ chunk).length + 1) (buf ++ chunk)

def push (markers : Markers) (buf chunk : Bytes) : OscResult × Bytes :=
  ((pieces buf chunk).1.foldl (OscResult.add markers) .empty, (pieces buf chunk).2)

def pushAll (markers : Markers) (buf : Bytes) : List Bytes → List OscResult × Bytes
  | [] => ([], buf)
  | chunk :: chunks =>
    let later := pushAll markers (push markers buf chunk).2 chunks
    ((push markers buf chunk).1 :: later.1, later.2)

-- The reading of a stream byte by byte, in which a sequence ends at its first terminator.
inductive Mode
  | ground
  | escape
  | payload (inner : Bytes)
  | payloadEscape (inner : Bytes)
  deriving DecidableEq

namespace Mode

-- The bytes that have been read of something incomplete.
def held : Mode → Bytes
  | ground => []
  | escape => [esc]
  | payload inner => introducer ++ inner
  | payloadEscape inner => introducer ++ inner ++ [esc]

def read : Mode → UInt8 → List Piece × Mode
  | ground, b =>
    if b = esc then ([], escape) else ([.byte b], ground)
  | escape, b =>
    if b = bracket then ([], payload [])
    else if b = esc then ([.byte esc], escape)
    else ([.byte esc, .byte b], ground)
  | payload inner, b =>
    if b = bel then ([.sequence inner [bel]], ground)
    else if b = esc then ([], payloadEscape inner)
    else ([], payload (inner ++ [b]))
  | payloadEscape inner, b =>
    if b = bel then ([.sequence (inner ++ [esc]) [bel]], ground)
    else if b = backslash then ([.sequence inner stringTerminator], ground)
    else if b = esc then ([], payloadEscape (inner ++ [esc]))
    else ([], payload (inner ++ [esc, b]))

end Mode

-- The bytes of a piece, and what it reports.
def Piece.bytes : Piece → Bytes
  | .byte b => [b]
  | .sequence inner terminator => introducer ++ inner ++ terminator
  | .overflow b => [b]

def Piece.report (markers : Markers) : Piece → Option Report
  | .sequence inner _ => markers.report inner
  | _ => none

end NyaTerm.Shell.Osc

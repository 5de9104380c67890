import NyaTerm.Tmux.Handshake

-- The passive detection of the startup of tmux in the output of a shell.
namespace NyaTerm.Tmux

namespace Commands

def commandWrappers : List String :=
  ["sudo", "doas", "pkexec", "command", "builtin", "nice", "stdbuf", "noglob", "time", "exec", "nohup",
    "env"]

def isSeparator (c : Char) : Bool :=
  c ∈ [';', '|', '&', '<', '>', '(', ')', '\x7b', '\x7d']

def isQuote (c : Char) : Bool :=
  c = '"' ∨ c = '\''

def stripQuotes (token : Text) : Text :=
  ((token.dropWhile isQuote).reverse.dropWhile isQuote).reverse

-- The tokens of a line, after a part of a token and in a quotation.
def shellTokens (part : Text) (quote : Option Char) : Text → List Text
  | [] => [part].filter (· ≠ [])
  | c :: cs =>
    if quote.isSome then shellTokens (part ++ [c]) (if quote = some c then none else quote) cs
    else if isQuote c then shellTokens (part ++ [c]) (some c) cs
    else if c ∈ [' ', '\t', '\n', '\x0c', '\r'] then
      [part].filter (· ≠ []) ++ shellTokens [] none cs
    else if isSeparator c then [part].filter (· ≠ []) ++ [c] :: shellTokens [] none cs
    else shellTokens (part ++ [c]) none cs

def isTmuxBinary (token : Text) : Bool :=
  token = "tmux".toList ∨ "/tmux".toList <:+ token

def isControlFlag (token : Text) : Bool :=
  2 ≤ token.length ∧ token.head? = some '-' ∧ token.tail.all (· = 'C')

def isSshFlagWithArg : Text → Bool
  | ['-', flag] => flag ∈ "BbcDEFIiJLlmOopQRSWw".toList
  | _ => false

-- The loop of `is_tmux_control_command`.
def scanTokens (expectCommand expectSshDest sshFlagArg tmuxSeen : Bool) : List Text → Bool
  | [] => false
  | raw :: tokens =>
    let token := stripQuotes raw
    if token = [] then scanTokens expectCommand expectSshDest sshFlagArg tmuxSeen tokens
    else if token.all isSeparator then scanTokens true false false false tokens
    else if expectSshDest then
      if sshFlagArg then scanTokens expectCommand true false tmuxSeen tokens
      else if token.head? = some '-' then
        scanTokens expectCommand true (isSshFlagWithArg token) tmuxSeen tokens
      else scanTokens true false sshFlagArg tmuxSeen tokens
    else if expectCommand then
      if token.head? = some '-' ∨ String.ofList token ∈ commandWrappers ∨ '=' ∈ token then
        scanTokens expectCommand expectSshDest sshFlagArg tmuxSeen tokens
      else if token = "ssh".toList then scanTokens expectCommand true sshFlagArg tmuxSeen tokens
      else scanTokens false expectSshDest sshFlagArg (tmuxSeen || isTmuxBinary token) tokens
    else
      tmuxSeen && isControlFlag token ||
        scanTokens expectCommand expectSshDest sshFlagArg tmuxSeen tokens

def isTmuxControlCommand (line : Text) : Bool :=
  scanTokens true false false false (shellTokens [] none line)

def tmuxSuffixMatches (single double escaped : Bool) : Text → Bool
  | [] => false
  | c :: cs =>
    if escaped then tmuxSuffixMatches single double false cs
    else if c = '\'' ∧ !double then tmuxSuffixMatches (!single) double false cs
    else if c = '"' ∧ !single then tmuxSuffixMatches single (!double) false cs
    else if c = '\\' ∧ !single then tmuxSuffixMatches single double true cs
    else
      !single && !double && "tmux".toList.isPrefixOf (c :: cs) && isTmuxControlCommand (c :: cs) ||
        tmuxSuffixMatches single double false cs

def isControlCommand (text : Text) : Bool :=
  isTmuxControlCommand text || tmuxSuffixMatches false false false text

end Commands

-- Times are in milliseconds.
def armWindow : Nat := 30000
def blindArmWindow : Nat := 5000
def silentHintDelay : Nat := 10000
def confirmTimeout : Nat := 5000
def maxInputLineBytes : Nat := 4096

def escape : UInt8 := 27
def percent : UInt8 := 37
-- %begin and a blank
def beginPrefix : Bytes := [37, 98, 101, 103, 105, 110, 32]

inductive InputTrack
  | normal | esc | csi | ss3 | osc | oscEsc
  deriving DecidableEq

inductive OutTrack
  | normal | csi | ss3 | osc | oscEsc | dcs | dcsEsc | percentLine
  deriving DecidableEq

structure Detector where
  lineStart : Bool
  outTrack : OutTrack
  candidate : Option Bytes
  done : Bool
  startup : Startup
  startupOffset : Nat
  candidateDeadline : Option Nat
  inputLine : Bytes
  inputTrack : InputTrack
  armedAt : Option Nat
  blindArmAt : Option Nat
  echoTail : Bool
  sawShellOutput : Bool
  inputSawEscape : Bool
  silenceHintSent : Bool
  deriving DecidableEq

inductive TmuxFeed
  | passthrough (bytes : Bytes)
  | detected (passthrough startup rest : Bytes)
  deriving DecidableEq

namespace Detector

def new : Detector where
  lineStart := true
  outTrack := .normal
  candidate := none
  done := false
  startup := .new
  startupOffset := 0
  candidateDeadline := none
  inputLine := []
  inputTrack := .normal
  armedAt := none
  blindArmAt := none
  echoTail := false
  sawShellOutput := false
  inputSawEscape := false
  silenceHintSent := false

def isArmed (detector : Detector) (now : Nat) : Bool :=
  detector.armedAt.any (fun armedAt => now - armedAt ≤ armWindow) ||
    detector.blindArmAt.any (fun armedAt => now - armedAt ≤ blindArmWindow)

def expireSilence (detector : Detector) (now : Nat) : Bool × Detector :=
  let elapsed := (detector.armedAt.or detector.blindArmAt).any fun armedAt =>
    silentHintDelay ≤ now - armedAt
  if ¬ elapsed ∨ detector.done ∨ detector.candidate.isSome ∨ detector.silenceHintSent ∨
      detector.sawShellOutput then
    (false, detector)
  else
    (true, { detector with silenceHintSent := true, armedAt := none, blindArmAt := none })

def isAsciiWhitespace (byte : UInt8) : Bool :=
  byte = 32 ∨ byte = 9 ∨ byte = 10 ∨ byte = 12 ∨ byte = 13

-- The detector is armed anew by a submitted line.
def resetOutput (detector : Detector) (echoTail : Bool) : Detector :=
  { detector with echoTail, sawShellOutput := false, outTrack := .normal }

def evaluateInputLine (detector : Detector) (now : Nat) (line : Bytes) : Detector :=
  if Commands.isControlCommand ((fromUtf8 line).getD []) then
    { detector.resetOutput true with armedAt := some now, silenceHintSent := false }
  else if line.any (!isAsciiWhitespace ·) then
    { detector.resetOutput false with armedAt := none }
  else
    detector

-- The end of a line. A line without text may have been recalled.
def submit (detector : Detector) (now : Nat) : Detector :=
  let line := detector.inputLine
  let sawEscape := detector.inputSawEscape
  let detector := { detector with inputLine := [], inputSawEscape := false }
  if line.all isAsciiWhitespace then
    if sawEscape then
      { detector.resetOutput true with blindArmAt := some now, silenceHintSent := false }
    else
      detector
  else
    { detector with blindArmAt := none }.evaluateInputLine now line

def inputByte (detector : Detector) (now : Nat) (byte : UInt8) : Detector :=
  match detector.inputTrack with
  | .esc =>
    { detector with inputTrack :=
        if byte = 91 then .csi else if byte = 79 then .ss3 else if byte = 93 then .osc
        else if byte = escape then .esc else .normal }
  | .csi => if 0x40 ≤ byte ∧ byte ≤ 0x7e then { detector with inputTrack := .normal } else detector
  | .ss3 => { detector with inputTrack := .normal }
  | .osc =>
    { detector with inputTrack :=
        if byte = 7 then .normal else if byte = escape then .oscEsc else .osc }
  | .oscEsc => { detector with inputTrack := if byte = backslash then .normal else .osc }
  | .normal =>
    if byte = carriageReturn ∨ byte = newline then
      detector.submit now
    else if byte = 0x12 ∨ byte = 0x10 ∨ byte = 0x0e then
      { detector with inputSawEscape := true, inputLine := [] }
    else if byte = 0x03 ∨ byte = 0x1c ∨ byte = 0x1a then
      { detector with inputSawEscape := false, inputLine := [] }
    else if byte = 0x7f ∨ byte = 0x08 then
      { detector with inputLine := detector.inputLine.dropLast }
    else if byte = escape then
      { detector with inputTrack := .esc, inputSawEscape := true }
    else if detector.inputLine.length < maxInputLineBytes then
      { detector with inputLine := detector.inputLine ++ [byte] }
    else
      { detector with inputLine := [] }

def feedInput (detector : Detector) (now : Nat) (data : Bytes) : Detector :=
  if detector.done then detector else data.foldl (fun detector byte => detector.inputByte now byte) detector

def endsLine (bytes : Bytes) : Bool :=
  bytes.getLast? = some newline ∨ bytes.getLast? = some carriageReturn

def takeCandidate (detector : Detector) : Bytes × Detector :=
  let bytes := detector.candidate.getD []
  (bytes, { detector with
    candidateDeadline := none
    startup := .new
    startupOffset := 0
    candidate := none
    lineStart := endsLine bytes })

def expireCandidate (detector : Detector) : Bytes × Detector :=
  { detector with armedAt := none, blindArmAt := none }.takeCandidate

-- The framing of a sequence or line that is not a candidate any more.
def trackByte (track : OutTrack) (byte : UInt8) : OutTrack :=
  match track with
  | .normal => .normal
  | .percentLine => if byte = newline then .normal else .percentLine
  | .csi => if 0x40 ≤ byte ∧ byte ≤ 0x7e then .normal else .csi
  | .ss3 => .normal
  | .osc => if byte = 7 then .normal else if byte = escape then .oscEsc else .osc
  | .oscEsc => if byte = backslash then .normal else .osc
  | .dcs => if byte = escape then .dcsEsc else .dcs
  | .dcsEsc => if byte = backslash then .normal else .dcs

def isAsciiControl (byte : UInt8) : Bool :=
  byte < 32 ∨ byte = 127

-- Ordinary output.
def forwardByte (detector : Detector) (byte : UInt8) : Detector :=
  { detector with
    echoTail := if byte = newline then false else detector.echoTail
    sawShellOutput := detector.sawShellOutput ||
      (byte ≠ newline && detector.lineStart && !isAsciiControl byte && !detector.echoTail)
    lineStart := byte = newline ∨ byte = carriageReturn }

-- What a byte leads to.
inductive Step
  | forward (out : Bytes)
  | overflow (out : Bytes)
  | detected (startup : Bytes)
  deriving DecidableEq

def startupPrefix (candidate : Bytes) : Bytes :=
  if candidate.head? = some escape then controlPrefix else beginPrefix

-- The candidate does not start as a startup does.
def flush (detector : Detector) : Step × Detector :=
  let flushed := detector.takeCandidate
  if flushed.1.head? = some escape then
    (.forward flushed.1, { flushed.2 with
      lineStart := detector.lineStart
      outTrack :=
        if flushed.1[1]? = some 91 then .csi else if flushed.1[1]? = some 79 then .ss3
        else if flushed.1[1]? = some 93 then .osc else if flushed.1[1]? = some 80 then .dcs
        else .normal })
  else
    (.forward flushed.1, { flushed.2 with
      outTrack := if flushed.1.head? = some percent then .percentLine else .normal })

def stripControlPrefix (line : Bytes) : Bytes :=
  if controlPrefix.isPrefixOf line then line.drop controlPrefix.length else line

-- The candidate is complete up to the end of a line.
def candidateLine (detector : Detector) (candidate : Bytes) : Step × Detector :=
  let line := (candidate.drop detector.startupOffset).dropLast
  match detector.startup.line (if detector.startupOffset = 0 then stripControlPrefix line else line) with
  | none => (.forward candidate, detector.takeCandidate.2)
  | some (startup, false) =>
    (.forward [], { detector with startup, startupOffset := candidate.length })
  | some (_, true) => (.detected candidate, { detector.takeCandidate.2 with done := true })

def candidateByte (detector : Detector) (candidate : Bytes) (byte : UInt8) : Step × Detector :=
  let candidate := candidate ++ [byte]
  let detector := { detector with candidate := some candidate }
  if confirmMaxBytes < candidate.length then
    (.overflow candidate, detector.expireCandidate.2)
  else if detector.startupOffset = 0 ∧ candidate.length ≤ (startupPrefix candidate).length ∧
      ¬ candidate.isPrefixOf (startupPrefix candidate) then
    detector.flush
  else if byte = newline then
    detector.candidateLine candidate
  else
    (.forward [], detector)

def step (detector : Detector) (now : Nat) (byte : UInt8) : Step × Detector :=
  match detector.candidate with
  | some candidate => detector.candidateByte candidate byte
  | none =>
    if detector.outTrack ≠ .normal then
      (.forward [byte], { detector with
        outTrack := trackByte detector.outTrack byte
        lineStart := detector.lineStart || (detector.outTrack = .percentLine && byte = newline) })
    else if byte = escape ∨ detector.lineStart ∧ byte = percent then
      { detector with candidateDeadline := some (now + confirmTimeout) }.candidateByte [] byte
    else
      (.forward [byte], detector.forwardByte byte)

end Detector

-- Output before what is fed later.
def TmuxFeed.prepend (out : Bytes) : TmuxFeed → TmuxFeed
  | .passthrough bytes => .passthrough (out ++ bytes)
  | .detected before startup rest => .detected (out ++ before) startup rest

namespace Detector

def scan (detector : Detector) (now : Nat) : Bytes → TmuxFeed × Detector
  | [] => (.passthrough [], detector)
  | byte :: rest =>
    match detector.step now byte with
    | (.forward out, detector) =>
      let later := detector.scan now rest
      (later.1.prepend out, later.2)
    | (.overflow out, detector) => (.passthrough (out ++ rest), detector)
    | (.detected startup, detector) => (.detected [] startup rest, detector)

def isExpired (detector : Detector) (now : Nat) : Bool :=
  detector.candidateDeadline.any (· ≤ now)

-- Output while the detector is not armed.
def passThrough (detector : Detector) (data : Bytes) : TmuxFeed × Detector :=
  let held := if detector.candidate.isSome then detector.takeCandidate else ([], detector)
  (.passthrough (held.1 ++ data),
    if data = [] then held.2 else { held.2 with lineStart := endsLine data })

def feed (detector : Detector) (now : Nat) (data : Bytes) : TmuxFeed × Detector :=
  if detector.done then
    (.passthrough data, detector)
  else
    let expired := if detector.isExpired now then detector.expireCandidate else ([], detector)
    let fed := if expired.2.isArmed now then expired.2.scan now data else expired.2.passThrough data
    (fed.1.prepend expired.1, fed.2)

-- What happens to a detector.
inductive Event
  | input (now : Nat) (data : Bytes)
  | output (now : Nat) (data : Bytes)
  | expireCandidate
  | expireSilence (now : Nat)

def react (detector : Detector) : Event → TmuxFeed × Detector
  | .input now data => (.passthrough [], detector.feedInput now data)
  | .output now data => detector.feed now data
  | .expireCandidate => (.passthrough detector.expireCandidate.1, detector.expireCandidate.2)
  | .expireSilence now => (.passthrough [], (detector.expireSilence now).2)

def run (detector : Detector) : List Event → List TmuxFeed × Detector
  | [] => ([], detector)
  | event :: events =>
    let later := (detector.react event).2.run events
    ((detector.react event).1 :: later.1, later.2)

end Detector

end NyaTerm.Tmux

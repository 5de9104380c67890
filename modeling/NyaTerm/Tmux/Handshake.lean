import NyaTerm.Tmux.Control

-- The validation of the startup, followed by a query with a token.
namespace NyaTerm.Tmux

def fromUtf8 (bytes : Bytes) : Option Text :=
  (String.fromUTF8? (ByteArray.mk bytes.toArray)).map String.toList

def confirmMaxBytes : Nat := 512 * 1024
-- ESC P1000p
def controlPrefix : Bytes := [27, 80, 49, 48, 48, 48, 112]

-- What the handshake distinguishes.
inductive Marker
  | begin (id : BlockId)
  | «end» (id : BlockId)
  | error
  | exit
  | session (session : Text)
  | notification
  | none
  deriving DecidableEq

def marker : Option ControlMessage → Marker
  | some (.begin id) => .begin id
  | some (.end id) => .end id
  | some (.error _) => .error
  | some (.exit _) => .exit
  | some (.sessionChanged session) => .session session
  | some _ => .notification
  | none => .none

-- A line, without the carriage returns at its end.
def readText (line : Bytes) : Option Text :=
  (fromUtf8 line).map fun text => (text.reverse.dropWhile (· = '\r')).reverse

structure Startup where
  block : Option BlockId
  completed : Bool
  session : Bool
  deriving DecidableEq

namespace Startup

def new : Startup :=
  ⟨none, false, false⟩

def mark (startup : Startup) : Marker → Option Startup
  | .begin id =>
    if startup.block.isNone ∧ ¬ startup.completed then some { startup with block := some id } else none
  | .end id =>
    if startup.block = some id then some { startup with block := none, completed := true } else none
  | .error => none
  | .exit => none
  | .session session =>
    if startup.block.isSome then some startup
    else if (session.head? = some '$') ∧ (parseU64 session.tail).isSome then
      some { startup with session := true }
    else none
  | .notification => some startup
  | .none => if startup.block.isSome then some startup else none

-- None rejects the candidate; true confirms the complete startup.
def line (startup : Startup) (line : Bytes) : Option (Startup × Bool) := do
  let startup ← startup.mark (marker (parseLine (← readText line)))
  some (startup, startup.completed && startup.session)

end Startup

-- The response that is open: whether its last line is the token, and the number of its lines.
structure Block where
  id : BlockId
  matched : Bool
  count : Nat
  deriving DecidableEq

inductive Progress
  | pending
  | confirmed (rest : Bytes)
  | rejected
  | exited (rest : Bytes)
  | limitExceeded
  deriving DecidableEq

inductive Outcome
  | confirmed
  | rejected
  | exited
  deriving DecidableEq

def Outcome.progress (outcome : Outcome) (rest : Bytes) : Progress :=
  match outcome with
  | .confirmed => .confirmed rest
  | .rejected => .rejected
  | .exited => .exited rest

structure Probe where
  token : Text
  command : Text
  raw : Bytes
  consumed : Nat
  block : Option Block
  deriving DecidableEq

namespace Probe

def tokenOf (uuid : Text) : Text :=
  "nyaterm_".toList ++ uuid

def commandOf (token : Text) : Text :=
  "display-message -p '".toList ++ token ++ ['\'']

def new (uuid : Text) (startup : Bytes) : Probe :=
  ⟨tokenOf uuid, commandOf (tokenOf uuid), startup, startup.length, none⟩

def mark (token command line : Text) (block : Option Block) : Marker → Except Outcome (Option Block)
  | .begin id => if block.isNone then .ok (some ⟨id, false, 0⟩) else .error .rejected
  | .end id => if block = some ⟨id, true, 1⟩ then .error .confirmed else .error .rejected
  | .exit => .error .exited
  | .error => .error .rejected
  | marker =>
    match block with
    | some block => .ok (some { block with matched := line = token, count := block.count + 1 })
    | none =>
      -- A notification alone does not verify the channel, and the command may be echoed.
      if marker = .none ∧ line ≠ command then .error .rejected else .ok none

def line (token command : Text) (block : Option Block) (bytes : Bytes) :
    Except Outcome (Option Block) :=
  match readText bytes with
  | none => .error .rejected
  | some line => mark token command line block (marker (parseLine line))

-- The probe is not used any more once there is an outcome.
def scan : (rounds : Nat) → Probe → Progress × Probe
  | 0, probe => (.pending, probe)
  | rounds + 1, probe =>
    match Lines.cut newline (probe.raw.drop probe.consumed) with
    | none => (.pending, probe)
    | some (bytes, _) =>
      let consumed := probe.consumed + bytes.length + 1
      match line probe.token probe.command probe.block bytes with
      | .ok block => scan rounds { probe with consumed, block }
      | .error outcome => (outcome.progress (probe.raw.drop consumed), { probe with consumed })

-- There are no more rounds than bytes.
def feed (probe : Probe) (data : Bytes) : Progress × Probe :=
  if confirmMaxBytes - probe.raw.length < data.length then (.limitExceeded, probe)
  else scan (probe.raw.length + data.length) { probe with raw := probe.raw ++ data }

-- The chunks are read up to the first outcome; the others are left.
def verify (probe : Probe) : List Bytes → Progress × List Bytes × Probe
  | [] => (.pending, [], probe)
  | chunk :: chunks =>
    if (probe.feed chunk).1 = .pending then (probe.feed chunk).2.verify chunks
    else ((probe.feed chunk).1, chunks, (probe.feed chunk).2)

-- A line that may stand before the response.
def IsQuiet (command : Text) (bytes : Bytes) : Prop :=
  ∃ line, readText bytes = some line ∧
    (marker (parseLine line) = .notification ∨ (∃ session, marker (parseLine line) = .session session) ∨
      marker (parseLine line) = .none ∧ line = command)

def marks (bytes : Bytes) (m : Marker) : Prop :=
  (readText bytes).map (marker ∘ parseLine) = some m

-- The first response in a stream, between quiet lines and what follows it. It ends with the identity
-- of the last line, or with an error.
structure Response (command : Text) (stream after : Bytes) where
  before : List Bytes
  first : Bytes
  body : List Bytes
  last : Bytes
  id : BlockId
  id' : Option BlockId
  eq : stream = Lines.join newline (before ++ first :: body ++ [last]) ++ after
  lines : ∀ line ∈ before ++ first :: body ++ [last], newline ∉ line
  quiet : ∀ line ∈ before, IsQuiet command line
  begin_first : marks first (.begin id)
  open_body : ∀ line ∈ body, ¬ marks line .error ∧ ¬ marks line .exit ∧ ∀ id, ¬ marks line (.end id)
  end_last : marks last (id'.elim .error .end)

-- The response is a pair of lines with the same identity around the token.
def Response.IsGenuine {command : Text} {stream after : Bytes} (response : Response command stream after)
    (token : Text) : Prop :=
  response.id' = some response.id ∧ ∃ line, response.body = [line] ∧ readText line = some token

end Probe

end NyaTerm.Tmux

import NyaTerm.Lib.Labelled

-- The mailbox for the input of all panes of a control client, shared by any number of producers
-- and one consumer. A step is one critical section of the shared state.
namespace NyaTerm.Tmux.Mailbox

abbrev Name := List Char

def byteLimit : Nat := 8388608
def itemLimit : Nat := 1024

inductive Command
  | tmuxCommand (line : List UInt8)
  | tmuxDetach
  | tmuxPaneInput (pane : Name) (data : List UInt8)
  | tmuxPaneClose (pane : Name)
  | other

namespace Command

-- A command is one line.
def valid : Command → Bool
  | tmuxCommand line => !line.any fun byte => byte = 13 ∨ byte = 10 ∨ byte = 0
  | _ => true

-- Detach and close have a way of their own.
def isControl : Command → Bool
  | tmuxDetach | tmuxPaneClose _ => true
  | _ => false

def bytes : Command → Nat
  | tmuxCommand line => line.length
  | tmuxPaneInput _ data => data.length
  | _ => 0

end Command

inductive ErrorKind
  | brokenPipe
  | invalidInput
  | wouldBlock

-- The ticket tells one reservation from another.
structure Permit where
  ticket : Nat
  bytes : Nat
  generation : Nat

structure PendingCommand where
  command : Command
  permit : Permit

structure State where
  bytes : Nat
  items : Nat
  peakBytes : Nat
  stopped : Bool
  suspended : Bool
  generation : Nat
  detach : Bool
  closePanes : List Name

namespace State

def new : State :=
  ⟨0, 0, 0, false, false, 0, false, []⟩

def reserve (state : State) (isClosed : Bool) (bytes ticket : Nat) :
    Except ErrorKind (State × Permit) :=
  if state.stopped ∨ state.suspended ∨ isClosed then .error .brokenPipe
  else if byteLimit < bytes then .error .invalidInput
  else if byteLimit - state.bytes < bytes ∨ itemLimit ≤ state.items then .error .wouldBlock
  else .ok ({ state with
    bytes := state.bytes + bytes
    peakBytes := max state.peakBytes (state.bytes + bytes)
    items := state.items + 1 }, ⟨ticket, bytes, state.generation⟩)

def admits (state : State) (permit : Permit) : Bool :=
  !(state.stopped || state.suspended || permit.generation != state.generation)

def release (state : State) (permit : Permit) : State :=
  { state with bytes := state.bytes - permit.bytes, items := state.items - 1 }

-- The flags for the control receiver.
def control (state : State) : Command → Except ErrorKind State
  | .tmuxDetach =>
    if state.stopped ∨ state.suspended then .error .brokenPipe else .ok { state with detach := true }
  | .tmuxPaneClose pane =>
    if state.stopped ∨ state.suspended then .error .brokenPipe
    else .ok { state with closePanes := state.closePanes.insert pane }
  | _ => .ok state

-- What the control receiver may take: a detach before the panes, these in any order.
inductive ControlTakes (state : State) : Command → State → Prop
  | detach : state.detach → ControlTakes state .tmuxDetach { state with detach := false }
  | close {pane} : state.detach = false → pane ∈ state.closePanes →
      ControlTakes state (.tmuxPaneClose pane)
        { state with closePanes := state.closePanes.erase pane }

-- The first part of `discard_pending`.
def discard (state : State) : State :=
  { state with
    suspended := true
    generation := state.generation + 1
    detach := false
    closePanes := [] }

end State

-- The consumer owns the receiver: it is in one call at a time.
inductive Consumer
  | idle
  | draining
  | gone
  deriving DecidableEq

structure Config where
  state : State
  nextTicket : Nat
  -- The commands of producers that have a permit and have not sent it yet.
  reserved : List PendingCommand
  queue : List PendingCommand
  -- The permits that are not dropped yet.
  released : List Permit
  consumer : Consumer

def Config.initial : Config :=
  ⟨.new, 0, [], [], [], .idle⟩

inductive Label
  | reserved (ticket : Nat)
  | enqueued (ticket : Nat)
  | refused (ticket : Nat)
  | control (command : Command)
  | controlReceived (command : Command)
  | received (ticket : Nat)
  | discard
  | discarded (ticket : Nat)
  | drained
  | resumed
  | dropped (ticket : Nat)
  | stopped

-- A refused request changes nothing, so that there is no step for one without a permit.
inductive Step (c : Config) : Label → Config → Prop
  | reserve {command state permit} : command.valid → command.isControl = false →
      c.state.reserve (c.consumer = .gone) command.bytes c.nextTicket = .ok (state, permit) →
      Step c (.reserved c.nextTicket) { c with
        state := state
        nextTicket := c.nextTicket + 1
        reserved := c.reserved ++ [⟨command, permit⟩] }
  | enqueue {before pending after} : c.reserved = before ++ pending :: after →
      c.state.admits pending.permit → c.consumer ≠ .gone →
      Step c (.enqueued pending.permit.ticket) { c with
        reserved := before ++ after
        queue := c.queue ++ [pending] }
  | refuse {before pending after} : c.reserved = before ++ pending :: after →
      ¬(c.state.admits pending.permit ∧ c.consumer ≠ .gone) →
      Step c (.refused pending.permit.ticket) { c with
        reserved := before ++ after
        released := c.released ++ [pending.permit] }
  | control {command state} : command.isControl → c.state.control command = .ok state →
      Step c (.control command) { c with state := state }
  | controlReceive {command state} : c.state.ControlTakes command state →
      Step c (.controlReceived command) { c with state := state }
  | receive {pending queue} : c.consumer = .idle → c.queue = pending :: queue →
      Step c (.received pending.permit.ticket) { c with
        queue := queue
        released := c.released ++ [pending.permit] }
  | discard : c.consumer = .idle →
      Step c .discard { c with state := c.state.discard, consumer := .draining }
  | tryReceive {pending queue} : c.consumer = .draining → c.queue = pending :: queue →
      Step c (.discarded pending.permit.ticket) { c with
        queue := queue
        released := c.released ++ [pending.permit] }
  | drained : c.consumer = .draining → c.queue = [] →
      Step c .drained { c with consumer := .idle }
  | resume : c.consumer = .idle →
      Step c .resumed { c with state := { c.state with suspended := false } }
  | drop {before permit after} : c.released = before ++ permit :: after →
      Step c (.dropped permit.ticket) { c with
        state := c.state.release permit
        released := before ++ after }
  | stop : c.consumer = .idle →
      Step c .stopped { c with
        state := { c.state with stopped := true }
        queue := []
        released := c.released ++ c.queue.map (·.permit)
        consumer := .gone }

abbrev Run := Labelled.Run Step

def Label.receivedTicket : Label → Option Nat
  | received ticket => some ticket
  | _ => none

def Label.enqueuedTicket : Label → Option Nat
  | enqueued ticket => some ticket
  | _ => none

def received (labels : List Label) : List Nat :=
  labels.filterMap Label.receivedTicket

def enqueued (labels : List Label) : List Nat :=
  labels.filterMap Label.enqueuedTicket

def tickets (queue : List PendingCommand) : List Nat :=
  queue.map (·.permit.ticket)

end NyaTerm.Tmux.Mailbox

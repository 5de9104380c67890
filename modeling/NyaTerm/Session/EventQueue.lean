import NyaTerm.Lib.Bytes
import NyaTerm.Lib.Labelled

-- The queue between the sessions and their consumers. A step is one critical section of the queue.
namespace NyaTerm.Session

abbrev SessionId := List Char
abbrev ConsumerId := Nat

def outputLimit : Nat := 8388608
def outputLowWatermark : Nat := 4194304
def outputEventLimit : Nat := 262144

inductive CleanupOperation
  | terminate
  | wait
  | readerJoin
  | writerJoin
  | startupFiles

-- The events that the queue does not look into have a payload.
inductive SessionEvent (π : Type)
  | output (session : SessionId) (data : List UInt8)
  | outputDropped (session : SessionId) (bytes : Nat)
  | cleanupFailed (session : SessionId) (consumer : Option ConsumerId) (operation : CleanupOperation)
  | other (session : SessionId) (payload : π)

variable {π : Type}

namespace SessionEvent

def sessionId : SessionEvent π → SessionId
  | output session _ | outputDropped session _ | cleanupFailed session _ _ | other session _ => session

def isCleanupFailed : SessionEvent π → Bool
  | cleanupFailed .. => true
  | _ => false

def outputBytes : SessionEvent π → Nat
  | output _ data => data.length
  | _ => 0

def droppedBytes : SessionEvent π → Nat
  | outputDropped _ bytes => bytes
  | _ => 0

end SessionEvent

-- An event with the push call it comes from, which is not known to the queue.
structure Entry (π : Type) where
  call : Nat
  event : SessionEvent π

def Entry.sessionId (entry : Entry π) : SessionId :=
  entry.event.sessionId

def outputBytes : List (Entry π) → Nat
  | [] => 0
  | entry :: rest => entry.event.outputBytes + outputBytes rest

structure Inner (π : Type) where
  events : List (Entry π)
  queuedOutputBytes : Nat
  peakOutputBytes : Nat
  outputBackpressured : Bool
  producerActive : Bool
  closed : Bool
  cancelledSessions : SessionId → Bool
  consumers : SessionId → Option ConsumerId

structure Stats where
  drainedEvents : Nat
  drainedOutputBytes : Nat
  queuedEvents : Nat
  queuedOutputBytes : Nat
  droppedOutputBytes : Nat

-- What an attempt to push comes to. One that has to wait is made again.
inductive Pushed (π : Type)
  | refused
  | pushed (inner : Inner π)
  | waits (inner : Inner π)

-- What a drain takes of an event.
inductive Taken (π : Type)
  | stop
  | part (chunk rest : SessionEvent π)
  | whole

namespace Inner

def new : Inner π :=
  ⟨[], 0, 0, false, false, false, fun _ => false, fun _ => none⟩

def accepts (inner : Inner π) (session : SessionId) : Bool :=
  !inner.closed && !inner.cancelledSessions session

def pushOutputChunk (inner : Inner π) (call : Nat) (session : SessionId) (data : List UInt8) :
    Pushed π :=
  if !inner.accepts session then .refused
  else if !inner.outputBackpressured ∧ inner.queuedOutputBytes + data.length ≤ outputLimit then
    let queued := inner.queuedOutputBytes + data.length
    .pushed { inner with
      events := inner.events ++ [⟨call, .output session data⟩]
      queuedOutputBytes := queued
      peakOutputBytes := max inner.peakOutputBytes queued
      outputBackpressured := outputLimit ≤ queued }
  else .waits { inner with outputBackpressured := true }

-- One turn of the loop of `push` or `push_async`.
def push (inner : Inner π) (call : Nat) (event : SessionEvent π) : Pushed π :=
  match event with
  | .output session data => inner.pushOutputChunk call session data
  | event =>
    if !inner.accepts event.sessionId then .refused
    else .pushed { inner with events := inner.events ++ [⟨call, event⟩] }

-- A diagnostic is queued for a cancelled session as well.
def pushCleanupFailure (inner : Inner π) (call : Nat) (session : SessionId)
    (consumer : Option ConsumerId) (operation : CleanupOperation) : Inner π :=
  if inner.closed then inner
  else if 256 ≤ (inner.events.filter (·.event.isCleanupFailed)).length then inner
  else { inner with events := inner.events ++ [⟨call, .cleanupFailed session consumer operation⟩] }

def resumeOutputIfBelowLowWatermark (inner : Inner π) : Inner π :=
  if inner.outputBackpressured ∧ inner.queuedOutputBytes ≤ outputLowWatermark then
    { inner with outputBackpressured := false }
  else inner

def cancelSession (inner : Inner π) (session : SessionId) : Inner π :=
  resumeOutputIfBelowLowWatermark { inner with
    cancelledSessions := fun s => if s = session then true else inner.cancelledSessions s
    consumers := fun s => if s = session then none else inner.consumers s
    events := inner.events.filter (·.sessionId ≠ session)
    queuedOutputBytes :=
      inner.queuedOutputBytes - outputBytes (inner.events.filter (·.sessionId = session)) }

def resumeSession (inner : Inner π) (session : SessionId) : Inner π :=
  if session = [] then inner
  else { inner with
    cancelledSessions := fun s => if s = session then false else inner.cancelledSessions s }

def assignConsumer (inner : Inner π) (session : SessionId) (consumer : ConsumerId) : Inner π :=
  if session = [] then inner
  else { inner with
    consumers := fun s => if s = session then some consumer else inner.consumers s }

def clearConsumer (inner : Inner π) (session : SessionId) (consumer : ConsumerId) : Inner π :=
  if inner.consumers session = some consumer then
    { inner with consumers := fun s => if s = session then none else inner.consumers s }
  else inner

def close (inner : Inner π) : Inner π :=
  { inner with closed := true }

def eventBelongsToConsumer (inner : Inner π) (consumer : ConsumerId) (entry : Entry π) : Bool :=
  match entry.event with
  | .cleanupFailed _ owner _ => owner = some consumer
  | event => inner.consumers event.sessionId = some consumer

end Inner

-- The first entry that a drain is for, with what stands before and after it.
def splitFirst (belongs : Entry π → Bool) :
    List (Entry π) → Option (List (Entry π) × Entry π × List (Entry π))
  | [] => none
  | entry :: rest =>
    if belongs entry then some ([], entry, rest)
    else (splitFirst belongs rest).map fun p => (entry :: p.1, p.2.1, p.2.2)

-- Output is cut at what is left of the byte budget, other events are not counted.
def takeEvent (budget : Option Nat) (drained : Nat) (event : SessionEvent π) : Taken π :=
  match budget, event with
  | some max, .output session data =>
    let remaining := max - drained
    if remaining = 0 then .stop
    else if remaining < data.length then
      .part (.output session (data.take remaining)) (.output session (data.drop remaining))
    else .whole
  | _, _ => .whole

def Stats.drained (stats : Stats) (event : SessionEvent π) : Stats :=
  { stats with
    drainedEvents := stats.drainedEvents + 1
    drainedOutputBytes := stats.drainedOutputBytes + event.outputBytes
    droppedOutputBytes := stats.droppedOutputBytes + event.droppedBytes }

-- The loop of both drains. The bytes drained are subtracted at once, and the subtraction stops at zero.
def drainLoop (belongs : Entry π → Bool) (budget : Option Nat) :
    (maxEvents : Nat) → Stats → Inner π → List (Entry π) × Stats × Inner π
  | 0, stats, inner => ([], stats, inner)
  | maxEvents + 1, stats, inner =>
    match splitFirst belongs inner.events with
    | none => ([], stats, inner)
    | some (before, entry, after) =>
      match takeEvent budget stats.drainedOutputBytes entry.event with
      | .stop => ([], stats, inner)
      | .part chunk rest =>
        let later := drainLoop belongs budget maxEvents (stats.drained chunk) { inner with
          events := before ++ ⟨entry.call, rest⟩ :: after
          queuedOutputBytes := inner.queuedOutputBytes - chunk.outputBytes }
        (⟨entry.call, chunk⟩ :: later.1, later.2)
      | .whole =>
        let later := drainLoop belongs budget maxEvents (stats.drained entry.event) { inner with
          events := before ++ after
          queuedOutputBytes := inner.queuedOutputBytes - entry.event.outputBytes }
        (entry :: later.1, later.2)

def Stats.zero : Stats :=
  ⟨0, 0, 0, 0, 0⟩

namespace Inner

def drain (inner : Inner π) (maxEvents : Nat) (budget : Option Nat) :
    List (Entry π) × Stats × Inner π :=
  let drained := drainLoop (fun _ => true) budget maxEvents .zero inner
  (drained.1, { drained.2.1 with
    queuedEvents := drained.2.2.events.length
    queuedOutputBytes := drained.2.2.queuedOutputBytes }, drained.2.2)

def drainForConsumer (inner : Inner π) (consumer : ConsumerId) (maxEvents : Nat)
    (budget : Option Nat) : List (Entry π) × Stats × Inner π :=
  let drained := drainLoop (inner.eventBelongsToConsumer consumer) budget maxEvents .zero inner
  let queued := drained.2.2.events.filter (inner.eventBelongsToConsumer consumer)
  (drained.1, { drained.2.1 with
    queuedEvents := queued.length
    queuedOutputBytes := outputBytes queued }, drained.2.2)

end Inner

-- A push call that waits for its turn.
structure Call (π : Type) where
  id : Nat
  event : SessionEvent π

-- The push call that has the turn, with what it still has to push.
structure Turn (π : Type) where
  id : Nat
  session : SessionId
  todo : List (SessionEvent π)

-- Large output is pushed in chunks.
def pieces : SessionEvent π → List (SessionEvent π)
  | .output session data => (Bytes.chunks outputEventLimit data).map (.output session)
  | event => [event]

structure Config (π : Type) where
  inner : Inner π
  nextCall : Nat
  waiting : List (Call π)
  turn : Option (Turn π)

def Config.initial : Config π :=
  ⟨.new, 0, [], none⟩

-- The calls for a session that have not returned.
def Config.calls (c : Config π) (session : SessionId) : List Nat :=
  (c.waiting.filter (·.event.sessionId = session)).map (·.id) ++
    (c.turn.toList.filter (·.session = session)).map (·.id)

inductive Label (π : Type)
  | begin (call : Nat) (event : SessionEvent π)
  | refused (call : Nat)
  | acquired (event : SessionEvent π)
  | pushed
  | waited
  | aborted
  | released
  | withdrawn (call : Nat)
  | dropped (session : SessionId)
  | cleanupFailed
  | cancel (session : SessionId)
  | resume (session : SessionId) (calls : List Nat)
  | assign (session : SessionId) (consumer : ConsumerId)
  | clear (session : SessionId) (consumer : ConsumerId)
  | close
  | drained (entries : List (Entry π))

inductive Step (c : Config π) : Label π → Config π → Prop
  | begin {event} : event.isCleanupFailed = false →
      Step c (.begin c.nextCall event) { c with
        nextCall := c.nextCall + 1
        waiting := c.waiting ++ [⟨c.nextCall, event⟩] }
  | refuse {before call after} : c.waiting = before ++ call :: after →
      c.inner.accepts call.event.sessionId = false →
      Step c (.refused call.id) { c with waiting := before ++ after }
  | acquire {before call after} : c.waiting = before ++ call :: after →
      c.inner.accepts call.event.sessionId → c.inner.producerActive = false →
      Step c (.acquired call.event) { c with
        inner := { c.inner with producerActive := true }
        waiting := before ++ after
        turn := some ⟨call.id, call.event.sessionId, pieces call.event⟩ }
  | push {id session event todo inner} : c.turn = some ⟨id, session, event :: todo⟩ →
      c.inner.push id event = .pushed inner →
      Step c .pushed { c with inner := inner, turn := some ⟨id, session, todo⟩ }
  | wait {id session event todo inner} : c.turn = some ⟨id, session, event :: todo⟩ →
      c.inner.push id event = .waits inner →
      Step c .waited { c with inner := inner }
  | abort {id session event todo} : c.turn = some ⟨id, session, event :: todo⟩ →
      c.inner.push id event = .refused →
      Step c .aborted { c with turn := some ⟨id, session, []⟩ }
  | release {id session} : c.turn = some ⟨id, session, []⟩ →
      Step c .released { c with inner := { c.inner with producerActive := false }, turn := none }
  -- The future of a `push_async` is dropped while it waits for its turn, or while it has the turn and
  -- waits for space: then it gives the turn back.
  | withdraw {before call after} : c.waiting = before ++ call :: after →
      Step c (.withdrawn call.id) { c with waiting := before ++ after }
  | drop {id session event todo} : c.turn = some ⟨id, session, event :: todo⟩ →
      Step c (.dropped session) { c with
        inner := { c.inner with producerActive := false }, turn := none }
  | cleanupFailed {session consumer operation} :
      Step c .cleanupFailed { c with
        inner := c.inner.pushCleanupFailure c.nextCall session consumer operation
        nextCall := c.nextCall + 1 }
  | cancel {session} :
      Step c (.cancel session) { c with inner := c.inner.cancelSession session }
  | resume {session} :
      Step c (.resume session (c.calls session)) { c with inner := c.inner.resumeSession session }
  | assign {session consumer} :
      Step c (.assign session consumer) { c with inner := c.inner.assignConsumer session consumer }
  | clear {session consumer} :
      Step c (.clear session consumer) { c with inner := c.inner.clearConsumer session consumer }
  | close : Step c .close { c with inner := c.inner.close }
  | drain {maxEvents budget} :
      Step c (.drained (c.inner.drain maxEvents budget).1) { c with
        inner := (c.inner.drain maxEvents budget).2.2.resumeOutputIfBelowLowWatermark }
  | drainForConsumer {consumer maxEvents budget} :
      Step c (.drained (c.inner.drainForConsumer consumer maxEvents budget).1) { c with
        inner := (c.inner.drainForConsumer consumer maxEvents budget).2.2.resumeOutputIfBelowLowWatermark }

abbrev Run : Config π → List (Label π) → Config π → Prop := Labelled.Run Step

-- The bytes and the events of one session. The diagnostics of a cleanup are not part of it.
def SessionEvent.items (session : SessionId) (event : SessionEvent π) :
    List (UInt8 ⊕ SessionEvent π) :=
  if event.sessionId = session then
    match event with
    | .output _ data => data.map .inl
    | .cleanupFailed .. => []
    | event => [.inr event]
  else []

def itemsOf (session : SessionId) (events : List (SessionEvent π)) : List (UInt8 ⊕ SessionEvent π) :=
  events.flatMap (·.items session)

def Label.pushedItems (session : SessionId) : Label π → List (UInt8 ⊕ SessionEvent π)
  | acquired event => event.items session
  | _ => []

def Label.drainedItems (session : SessionId) : Label π → List (UInt8 ⊕ SessionEvent π)
  | drained entries => itemsOf session (entries.map (·.event))
  | _ => []

-- What was pushed for a session, in the order in which the calls had their turns.
def pushed (session : SessionId) (labels : List (Label π)) : List (UInt8 ⊕ SessionEvent π) :=
  labels.flatMap (·.pushedItems session)

def drained (session : SessionId) (labels : List (Label π)) : List (UInt8 ⊕ SessionEvent π) :=
  labels.flatMap (·.drainedItems session)

def Config.queued (c : Config π) (session : SessionId) : List (UInt8 ⊕ SessionEvent π) :=
  itemsOf session (c.inner.events.map (·.event))

def Config.todo (c : Config π) : List (SessionEvent π) :=
  c.turn.elim [] (·.todo)

end NyaTerm.Session

import NyaTerm.Trzsz.Download
import NyaTerm.Trzsz.Sink

namespace NyaTerm.Trzsz

variable [Library] [LocalPaths] [Host]

-- What is seen of a download: the frames that the engine observes, and what it then does.
inductive Observation
  | frame (frame : Frame)
  | act (act : Act)
  deriving DecidableEq

inductive Failure
  | config (message : String)
  | peer (payload : Payload)
  | engine (error : DownloadError)
  | sink (error : SinkError)

inductive Outcome
  | failed (failure : Failure)
  | completed (names : List String)

structure Worker where
  engine : DownloadEngine
  sink : Sink
  trace : List Observation
  outcome : Option Outcome

def isDownloadFrame (frame : Frame) : Bool :=
  ["NUM", "NAME", "SIZE", "DATA", "MD5", "COMP"].any frame.is

namespace Worker

def new (directory : Path) (world : Host.World) : Worker :=
  ⟨.new, .new directory world, [], none⟩

def fail (worker : Worker) (failure : Failure) : Worker :=
  { worker with outcome := some (.failed failure) }

def observe (worker : Worker) (observation : Observation) : Worker :=
  { worker with trace := worker.trace ++ [observation] }

def deliver (worker : Worker) (event : DownloadEvent) : Worker :=
  match worker.sink.apply event with
  | .error e => worker.fail (.sink e)
  | .ok (sink, .completed names) => { worker with sink, outcome := some (.completed names) }
  | .ok (sink, _) => { worker with sink }

def isFailed (worker : Worker) : Bool :=
  match worker.outcome with
  | some (.failed _) => true
  | _ => false

-- Events go to the sink one by one, until it fails or the transfer is cancelled.
def perform (worker : Worker) : List Act → Worker
  | [] => worker
  | .consume bytes :: acts => (worker.observe (.act (.consume bytes))).perform acts
  | .emit event :: acts =>
    if Host.stopped worker.sink.world then
      worker.fail (.sink .cancelled)
    else
      let worker := (worker.observe (.act (.emit event))).deliver event
      if worker.isFailed then worker else worker.perform acts

-- The engine fails after its events were handed over, and so does the worker.
def settle (worker : Worker) (result : Except DownloadError (DownloadEngine × List Response)) :
    Worker :=
  if worker.isFailed then
    worker
  else
    match result with
    | .error e => worker.fail (.engine e)
    | .ok (engine, _) => { worker with engine }

def transfer (worker : Worker) (frame : Frame) : Worker :=
  let observed := worker.engine.observeFrame frame
  ((worker.observe (.frame frame)).perform observed.acts).settle observed.result

def processFrame (worker : Worker) (frame : Frame) : Worker :=
  match parseConfigFrame frame with
  | some config =>
    match worker.engine.configure config with
    | .error message => worker.fail (.config message)
    | .ok engine => { worker with engine }
  | none =>
    if frame.is "FAIL" || frame.is "EXIT" then
      worker.fail (.peer frame.payload)
    else if isDownloadFrame frame then
      worker.transfer frame
    else
      worker

-- No frame is processed after the transfer has come to an end.
def step (worker : Worker) (frame : Frame) : Worker :=
  if worker.outcome.isSome then worker else worker.processFrame frame

def run (worker : Worker) (frames : List Frame) : Worker :=
  frames.foldl step worker

end Worker

end NyaTerm.Trzsz

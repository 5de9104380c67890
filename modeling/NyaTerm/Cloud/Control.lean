import NyaTerm.Cloud.World

open Program

namespace NyaTerm

-- The state of an operation that can be cancelled until it begins to commit.
inductive OperationState
  | preparing
  | cancelled
  | committing
  deriving DecidableEq

inductive CloudSyncCancellation
  | stopping
  | finishingCommit
  deriving DecidableEq

namespace OperationState

-- One atomic exchange each: whoever finds the operation preparing decides.
def requestCancel : OperationState → CloudSyncCancellation × OperationState
  | preparing | cancelled => (.stopping, cancelled)
  | committing => (.finishingCommit, committing)

def checkpoint : OperationState → Except CloudSyncError Unit
  | cancelled => .error .cancelled
  | _ => .ok ()

def beginCommit : OperationState → Except CloudSyncError Unit × OperationState
  | preparing | committing => (.ok (), committing)
  | cancelled => (.error .cancelled, cancelled)

end OperationState

section Controlled

variable [SnapshotFormat]

-- `ControlledRemote` and `ControlledStore`. Some operations wrap their stores twice, which only
-- repeats the checkpoints.
def CloudSync.controlled : (c : CloudRequest) → CloudSync (Answer c)
  | .readIfExists path => do
    ask .checkpoint
    let result ← ask (.readIfExists path)
    ask .checkpoint
    return result
  | .listFiles dir => do
    ask .checkpoint
    let result ← ask (.listFiles dir)
    ask .checkpoint
    return result
  | .buildSnapshot => do
    ask .checkpoint
    let snapshot ← ask .buildSnapshot
    ask .checkpoint
    return snapshot
  | .write path bytes => do
    ask .checkpoint
    ask (.write path bytes)
  | .delete path => do
    ask .checkpoint
    ask (.delete path)
  | .createDir dir => do
    ask .checkpoint
    ask (.createDir dir)
  | .fileCapacity => do
    ask .checkpoint
    ask .fileCapacity
  | .encodeSnapshot snapshot => do
    ask .checkpoint
    ask (.encodeSnapshot snapshot)
  | .decodeSnapshot bytes => do
    ask .checkpoint
    ask (.decodeSnapshot bytes)
  | .encodePointer pointer => do
    ask .checkpoint
    ask (.encodePointer pointer)
  | .decodePointer bytes => do
    ask .checkpoint
    ask (.decodePointer bytes)
  | .applyChecked snapshot expectedContentHash state => do
    ask .beginCommit
    ask (.applyChecked snapshot expectedContentHash state)
  | .persistState state => do
    ask .beginCommit
    ask (.persistState state)
  | c => ask c

-- Writes that others can see, or that outlive the operation: the head of a device, the pointer and
-- the copy that older clients share, what the device remembers, and its documents.
def CloudRequest.isPublication : CloudRequest → Bool
  | .write (.head _) _ | .write .latest _ | .write .current _ => true
  | .persistState _ | .applyChecked .. => true
  | _ => false

-- What happens to the control of an operation.
inductive ControlEvent
  | cancel (result : CloudSyncCancellation)
  | checkpoint (result : Except CloudSyncError Unit)
  | beginCommit (result : Except CloudSyncError Unit)

structure OperationControl where
  state : OperationState
  log : List ControlEvent

namespace OperationControl

def initial : OperationControl := ⟨.preparing, []⟩

def requestCancel (control : OperationControl) : OperationControl :=
  let (result, state) := control.state.requestCancel
  ⟨state, control.log ++ [.cancel result]⟩

-- The control answers its own calls. Everything else can be answered in any way.
inductive Answers (control : OperationControl) :
    (c : CloudRequest) → Except CloudSyncError (Answer c) → OperationControl → Prop
  | checkpoint : Answers control .checkpoint control.state.checkpoint
    { control with log := control.log ++ [.checkpoint control.state.checkpoint] }
  | beginCommit : Answers control .beginCommit control.state.beginCommit.1
    ⟨control.state.beginCommit.2, control.log ++ [.beginCommit control.state.beginCommit.1]⟩
  | other {c x} (h : c ≠ .checkpoint ∧ c ≠ .beginCommit) : Answers control c x control

end OperationControl

-- An operation under its control, while others may ask for its cancellation at any time.
def controlSystem : System CloudSyncError Answer where
  World := OperationControl
  Actor := Unit
  Op := CloudCall
  Result call := call.operation.Result
  program call := call.program.translate CloudSync.controlled
  Starts _ _ _ := True
  Answers control _ := control.Answers
  Moves control next := next = control.requestCancel

instance : DecidableEq controlSystem.Actor :=
  inferInstanceAs (DecidableEq Unit)

end Controlled

end NyaTerm

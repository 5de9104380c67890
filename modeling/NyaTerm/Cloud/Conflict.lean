import NyaTerm.Cloud.Operations

namespace NyaTerm

-- What the user has decided on: the branches and the local content that they were shown, and the
-- branch to take, or none to keep what is local.
structure CloudResolutionRequest where
  observedRevisions : List String
  selectedRevision : Option String
  localContentHash : String
  deriving DecidableEq

variable [SnapshotFormat]

namespace CloudSync

open Program CloudSyncState

-- Whether some branch must not be overwritten, and what is shown of each of them.
def inspectBranches : List RemoteSyncPointer → CloudSync (Bool × List CloudConflictBranch)
  | [] => return (false, [])
  | pointer :: pointers => do
    let decoded ← (readSnapshotForPointer pointer).attempt
    let (blocked, branches) ← inspectBranches pointers
    let branch : CloudConflictBranch := {
      revision := pointer.revisionId
      deviceId := pointer.deviceId
      deviceName := decoded.toOption.bind (·.deviceName)
      createdAtMs := pointer.createdAtMs
      readable := decoded.isOk
    }
    match decoded with
    | .ok _ => return (blocked, branch :: branches)
    | .error error => return (error.blocksOverwrite || blocked, branch :: branches)

-- A conflict is reported together with what the user has to choose from.
def withDetails {α : Type} (operation : CloudSync α) : CloudSync α := do
  match ← operation.attempt with
  | .ok result => return result
  | .error (.conflict preview) =>
    let localSnapshot ← (ask .buildSnapshot).attempt
    let heads ← readHeads.attempt
    match localSnapshot, heads with
    | .ok localSnapshot, .ok heads =>
      let (blocked, branches) ← inspectBranches heads.maximal
      fail (.conflict { preview with
        branches := branches
        observedRevisions := heads.observedRevisions
        localContentHash := localSnapshot.syncContentHash.toOption
        overwriteBlocked := preview.overwriteBlocked || blocked })
    | _, _ => fail (.conflict preview)
  | .error error => fail error

def push (options : LocalCloudSyncOptions) (state : CloudSyncState) (force : Bool) :
    CloudSync CloudSyncResult :=
  withDetails (pushPrepared options state force none)

def pull (options : LocalCloudSyncOptions) (state : CloudSyncState) (force : Bool) :
    CloudSync CloudSyncResult :=
  withDetails (pullPrepared options state force none)

def check (options : LocalCloudSyncOptions) (state : CloudSyncState) (allowAutoPull : Bool) :
    CloudSync CloudSyncCheck :=
  withDetails (checkInner options state allowAutoPull)

def CloudSyncCheck.push (checked : CloudSyncCheck) (options : LocalCloudSyncOptions) :
    CloudSync CloudSyncResult :=
  withDetails (pushPrepared options checked.state false (some checked.prepared))

def CloudSyncCheck.pull (checked : CloudSyncCheck) (options : LocalCloudSyncOptions) :
    CloudSync CloudSyncResult :=
  withDetails (pullPrepared options checked.state false (some checked.prepared))

-- One round of the automatic synchronization. Its result is remembered unless something is left to
-- be done.
def autoSync (options : LocalCloudSyncOptions) (state : CloudSyncState)
    (autoPush allowAutoPull : Bool) : CloudSync Unit := do
  let checked ← check options state allowAutoPull
  match checked.decision with
  | .localChanged =>
    if autoPush then
      let _ ← CloudSyncCheck.push checked options
    else
      ask (.persistState checked.state)
  | .autoPull =>
    let _ ← CloudSyncCheck.pull checked options
  | .upToDate => ask (.persistState checked.state)
  | _ => return ()

-- The error for a request that does not fit what there is now.
def changedPreview : CloudSync CloudSyncError := do
  match ← (ask .buildSnapshot).attempt with
  | .error _ => return .localChangedDuringSync
  | .ok localSnapshot =>
    let heads ← readHeads.attempt
    let selected := heads.toOption.bind (·.selected)
    return .conflict (conflictPreview localSnapshot.payloadHash
      (selected.getD (.ofSnapshot localSnapshot)))

def failChanged {α : Type} : CloudSync α := do
  let error ← changedPreview
  fail error

def requireObserved (request : CloudResolutionRequest) : CloudSync RemoteHeads := do
  let heads ← readHeads
  if heads.observedRevisions ≠ request.observedRevisions then
    match heads.selected with
    | some pointer => fail (.conflict (conflictPreview "" pointer))
    | none => failChanged
  else
    return heads

-- What has to hold right before the head of the device is written.
def guardHead (request : CloudResolutionRequest) : CloudSync Unit := do
  let heads ← requireObserved request
  let localSnapshot ← ask .buildSnapshot
  let localContent ← portable localSnapshot.syncContentHash
  if localContent ≠ request.localContentHash then
    failChanged
  else
    match request.selectedRevision with
    | none => return ()
    | some revision =>
      match heads.maximal.find? (·.revisionId = revision) with
      | none => failChanged
      | some pointer =>
        match ← (readSnapshotForPointer pointer).attempt with
        | .ok _ => return ()
        | .error _ => failChanged

-- The remote storage that a resolution writes to.
def guardedRemote (options : LocalCloudSyncOptions) (request : CloudResolutionRequest) :
    (c : CloudRequest) → CloudSync (Answer c)
  | .write path bytes => do
    (guardHead request).when (path = .head options.deviceId)
    ask (.write path bytes)
  | c => ask c

-- A different branch must not hide a wrong password or an unknown format.
def requireOverwritable : List RemoteSyncPointer → CloudSync Unit
  | [] => return ()
  | pointer :: pointers => do
    match ← (readSnapshotForPointer pointer).attempt with
    | .ok _ => requireOverwritable pointers
    | .error error => if error.blocksOverwrite then failChanged else requireOverwritable pointers

def resolveInner (options : LocalCloudSyncOptions) (state : CloudSyncState)
    (request : CloudResolutionRequest) : CloudSync CloudSyncResult := do
  ask .checkpoint
  let heads ← requireObserved request
  let localSnapshot ← ask .buildSnapshot
  let localContent ← portable localSnapshot.syncContentHash
  if localContent ≠ request.localContentHash then
    failChanged
  else
    match request.selectedRevision with
    | some revision =>
      match heads.maximal.find? (·.revisionId = revision) with
      | none => fail .noRemoteSnapshot
      | some pointer =>
        let snapshot ← readSnapshotForPointer pointer
        let heads := { heads with selected := some pointer }
        (pullPrepared options state true (some ⟨localSnapshot, heads, some snapshot⟩)).translate
          (guardedRemote options request)
    | none =>
      requireOverwritable heads.maximal
      (pushPrepared options state true (some ⟨localSnapshot, heads, none⟩)).translate
        (guardedRemote options request)

-- The errors that mean that the choice has to be made again.
def isOutdated : CloudSyncError → Bool
  | .noRemoteSnapshot | .snapshotMissing _ | .localChangedDuringSync
  | .remoteSnapshotUnreadable .. | .corruptedSnapshot _ | .revisionMismatch ..
  | .hashMismatch .. => true
  | _ => false

-- `resolve_with_remote`.
def resolve (options : LocalCloudSyncOptions) (state : CloudSyncState)
    (request : CloudResolutionRequest) : CloudSync CloudSyncResult := do
  ask .checkpoint
  withDetails do
    match ← (resolveInner options state request).attempt with
    | .ok result => return result
    | .error error => if isOutdated error then failChanged else fail error

end CloudSync

end NyaTerm

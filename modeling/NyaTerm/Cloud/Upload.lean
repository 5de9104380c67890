import NyaTerm.Cloud.Gc

namespace NyaTerm

variable [SnapshotFormat]

-- What the snapshot of a head turns out to be.
inductive RemoteSnapshotResolution
  | current (snapshot : RawPortableSnapshot)
  | legacyMigrated (snapshot : RawPortableSnapshot)
  | inconsistent (pointer : RemoteSyncPointer) (recoveryCandidate : Option RawPortableSnapshot)
      (overwriteBlocked : Bool)

namespace CloudSync

open Program

-- A file that is missing after an accepted write means that there was no slot for it.
def capacityVerdict (capacityLimited : Bool) : CloudSyncError → CloudSyncError
  | .snapshotMissing revision => if capacityLimited then .gistCapacity else .snapshotMissing revision
  | error => error

-- The write of an attempt, after room was made for it and others were told of it. An attempt that
-- does not write counts on the one before.
def attemptWrite (options : LocalCloudSyncOptions) (pointer : RemoteSyncPointer)
    (expected : Option RemoteSyncPointer) (bytes : Bytes) (stageDevice : Bool) :
    (writes : Bool) → CloudSync (Except CloudSyncError Unit)
  | false => return .ok ()
  | true => do
    reserveSnapshotCapacity options expected pointer.revisionId
    (stage options.deviceId pointer.revisionId).when stageDevice
    (ask (.write (.snapshot pointer.revisionId) bytes)).attempt

-- One attempt after the other. Storages with a limited number of files repeat the write, all others
-- write once and only read again.
def uploadAttempts (options : LocalCloudSyncOptions) (pointer : RemoteSyncPointer)
    (expected : Option RemoteSyncPointer) (bytes : Bytes) (stageDevice capacityLimited : Bool) :
    (first : Bool) → (attempts : Nat) → CloudSync Unit
  | _, 0 => fail (.remote "remote snapshot could not be verified")
  | first, attempts + 1 => do
    let lastAttempt : Bool := attempts = 0
    match ← attemptWrite options pointer expected bytes stageDevice (capacityLimited || first) with
    | .error error =>
      if capacityLimited && !lastAttempt then
        uploadAttempts options pointer expected bytes stageDevice capacityLimited false attempts
      else
        fail (capacityVerdict capacityLimited error)
    | .ok () =>
      match ← (verifyWrittenSnapshot pointer bytes).attempt with
      | .ok () => return ()
      | .error error =>
        if lastAttempt || !error.readbackRetryIsUseful then
          fail (capacityVerdict capacityLimited error)
        else
          uploadAttempts options pointer expected bytes stageDevice capacityLimited false attempts

def uploadVerifiedSnapshot (options : LocalCloudSyncOptions) (pointer : RemoteSyncPointer)
    (expected : Option RemoteSyncPointer) (bytes : Bytes) (stageDevice : Bool) :
    CloudSync Unit := do
  let capacity ← ask .fileCapacity
  let attempts := if capacity.isSome then 2 else readbackVerifyAttempts
  uploadAttempts options pointer expected bytes stageDevice capacity.isSome true attempts

-- Only the fixed projection of the documents can be published.
def isFixed (snapshot : RawPortableSnapshot) : CloudSync Bool :=
  if snapshot.schemaVersion ≠ RawPortableSnapshot.fixedSchemaVersion then
    return false
  else do
    let projected ← portable snapshot.projectFixed
    return projected.entities = snapshot.entities

def uploadSyncSnapshot (options : LocalCloudSyncOptions) (snapshot : RawPortableSnapshot)
    (expected : Option RemoteSyncPointer) : CloudSync Bytes := do
  if ← isFixed snapshot then
    let bytes ← ask (.encodeSnapshot snapshot)
    uploadVerifiedSnapshot options (.ofSnapshot snapshot) expected bytes true
    return bytes
  else
    fail (.remote "Only fixed-scope snapshots can be published")

-- The compatible copy can take the place of a missing snapshot if it is the same one.
def repairs (pointer : RemoteSyncPointer) (current : RawPortableSnapshot) : CloudSync Bool :=
  if pointer.validate current = .ok () then isFixed current else return false

def resolveRemoteSnapshot (options : LocalCloudSyncOptions) (pointer : RemoteSyncPointer) :
    CloudSync RemoteSnapshotResolution := do
  match ← (readSnapshotForPointer pointer).attempt with
  | .ok snapshot => return .current snapshot
  | .error error =>
    if !error.isUnusableHead then
      fail error
    else
      match ← readCurrent.attempt with
      | .ok (some current) =>
        if ← repairs pointer current then
          let some bytes ← ask (.readIfExists .current) | fail (.snapshotMissing "current")
          uploadVerifiedSnapshot options pointer (some pointer) bytes false
          let _ ← readSnapshotForPointer pointer
          return .legacyMigrated current
        else
          return .inconsistent pointer (some current) error.overwriteBlocked
      | .ok none | .error (.corruptedSnapshot _) =>
        return .inconsistent pointer none error.overwriteBlocked
      | .error (.remoteSnapshotUnreadable _ cause) =>
        return .inconsistent pointer none (error.overwriteBlocked || cause.blocksRemoteOverwrite)
      | .error other => fail other

def verifyPointer (pointer : RemoteSyncPointer) (bytes : Bytes) (capacityLimited : Bool) :
    (first : Bool) → (attempts : Nat) → CloudSync Unit
  | _, 0 => fail (if capacityLimited then .gistCapacity
      else .remote "remote head write could not be verified")
  | first, attempts + 1 => do
    (ask (.write .latest bytes)).when (capacityLimited || first)
    match ← loadSyncPointer.attempt with
    | .ok readback =>
      if readback = some pointer then
        return ()
      else
        verifyPointer pointer bytes capacityLimited false attempts
    | .error error =>
      if error.isDamage then
        verifyPointer pointer bytes capacityLimited false attempts
      else
        fail error

def writeSyncPointer (pointer : RemoteSyncPointer) : CloudSync Unit := do
  let bytes ← ask (.encodePointer pointer)
  let capacity ← ask .fileCapacity
  let attempts := if capacity.isSome then 2 else readbackVerifyAttempts
  verifyPointer pointer bytes capacity.isSome true attempts

-- The head of the device is what counts. The shared pointer and the compatible copy may fail.
def commitHead (pointer : RemoteSyncPointer) (bytes : Bytes) : CloudSync Unit := do
  ask .beginCommit
  publish pointer
  let _ ← (writeSyncPointer pointer).attempt
  let _ ← (ask (.write .current bytes)).attempt

end CloudSync

end NyaTerm

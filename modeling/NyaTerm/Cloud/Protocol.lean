import NyaTerm.Cloud.Heads

namespace NyaTerm

def remotePointerSchemaVersion : Nat := 3

def minEncryptedSnapshotBytes : Nat := 13

def maxEncryptedSnapshotBytes : Nat := 64 * 1024 * 1024

-- The errors of a password or a format that this client cannot handle, whatever the bytes are.
def PortableSnapshotError.isLocal : PortableSnapshotError → Bool
  | missingMasterPassword | unsupportedEncryptionVersion _ | invalidEncryptionEnvelope
  | unsupportedVersion _ => true
  | _ => false

namespace CloudSyncError

-- A snapshot that is missing or damaged may still be repaired.
def isUnusableHead : CloudSyncError → Bool
  | snapshotMissing _ | corruptedSnapshot _ | revisionMismatch .. | hashMismatch ..
  | remoteSnapshotUnreadable .. => true
  | _ => false

-- `unreadable_head` of this error.
def overwriteBlocked : CloudSyncError → Bool
  | remoteSnapshotUnreadable _ cause => cause.blocksRemoteOverwrite
  | _ => false

-- `blocks_overwrite`.
def blocksOverwrite : CloudSyncError → Bool
  | remoteSnapshotUnreadable _ cause => cause.blocksRemoteOverwrite
  | portableSnapshot error => error.isLocal
  | _ => false

def readbackRetryIsUseful : CloudSyncError → Bool
  | cancelled | disabled | gistCapacity => false
  | _ => true

end CloudSyncError

variable [SnapshotFormat]

namespace RemoteSyncPointer

def ofSnapshot (snapshot : RawPortableSnapshot) : RemoteSyncPointer where
  schemaVersion := remotePointerSchemaVersion
  revisionId := snapshot.revisionId
  createdAtMs := snapshot.createdAtMs
  payloadHash := snapshot.sourcePayloadHash
  deviceId := snapshot.deviceId
  appVersion := snapshot.appVersion
  syncClock := snapshot.syncClock

-- `validate_snapshot_against_pointer`.
def validate (pointer : RemoteSyncPointer) (snapshot : RawPortableSnapshot) :
    Except CloudSyncError Unit :=
  if snapshot.revisionId ≠ pointer.revisionId then
    .error (.revisionMismatch pointer.revisionId snapshot.revisionId)
  else if pointer.syncClock ≠ snapshot.syncClock then
    .error (.remote "snapshot causal clock does not match its head")
  else if snapshot.sourcePayloadHash ≠ pointer.payloadHash then
    .error (.hashMismatch pointer.payloadHash snapshot.sourcePayloadHash)
  else
    .ok ()

end RemoteSyncPointer

def validateRemoteSnapshotSize (bytes : Bytes) (revision : String) : Except CloudSyncError Unit :=
  if minEncryptedSnapshotBytes ≤ SnapshotFormat.size bytes ∧
      SnapshotFormat.size bytes ≤ maxEncryptedSnapshotBytes then
    .ok ()
  else
    .error (.corruptedSnapshot revision)

namespace CloudSync

open Program

-- A password that is known to be right means that the bytes are not ours.
def decryptCause : CloudSync SnapshotUnreadableCause := do
  match ← (ask .verifyMasterPassword).attempt with
  | .ok (some true) => return .payloadNotAuthentic
  | .ok (some false) => return .masterPasswordMismatch
  | _ => return .unknown

def decodeRemoteSnapshot (bytes : Bytes) (revision : String) : CloudSync RawPortableSnapshot := do
  match ← (ask (.decodeSnapshot bytes)).attempt with
  | .ok snapshot => return snapshot
  | .error (.portableSnapshot .decrypt) =>
    let cause ← decryptCause
    fail (.remoteSnapshotUnreadable revision cause)
  | .error (.portableSnapshot error) =>
    if error.isLocal then fail (.portableSnapshot error) else fail (.corruptedSnapshot revision)
  | .error _ => fail (.corruptedSnapshot revision)

def decodeAndValidate (bytes : Bytes) (pointer : RemoteSyncPointer) :
    CloudSync RawPortableSnapshot := do
  done (validateRemoteSnapshotSize bytes pointer.revisionId)
  let snapshot ← decodeRemoteSnapshot bytes pointer.revisionId
  done (pointer.validate snapshot)
  return snapshot

def readSnapshotForPointer (pointer : RemoteSyncPointer) : CloudSync RawPortableSnapshot := do
  let some bytes ← ask (.readIfExists (.snapshot pointer.revisionId)) |
    fail (.snapshotMissing pointer.revisionId)
  decodeAndValidate bytes pointer

-- What the remote storage has kept is compared with what was written before it is decoded.
def verifyWrittenSnapshot (pointer : RemoteSyncPointer) (written : Bytes) : CloudSync Unit := do
  let some bytes ← ask (.readIfExists (.snapshot pointer.revisionId)) |
    fail (.snapshotMissing pointer.revisionId)
  if bytes ≠ written then
    fail (.remoteWriteDiverged pointer.revisionId)
  else
    let _ ← decodeAndValidate bytes pointer

-- The copy of the last snapshot that older clients read.
def readCurrent : CloudSync (Option RawPortableSnapshot) := do
  let some bytes ← ask (.readIfExists .current) | return none
  done (validateRemoteSnapshotSize bytes "current")
  let snapshot ← decodeRemoteSnapshot bytes "current"
  return some snapshot

def ensureRemoteHeadUnchanged (expected : Option RemoteSyncPointer) : CloudSync Unit := do
  let actual ← loadSyncPointer
  let expectedRevision := expected.map (·.revisionId)
  let actualRevision := actual.map (·.revisionId)
  if expectedRevision ≠ actualRevision then
    fail (.concurrentUpdate expectedRevision actualRevision)
  else
    return ()

end CloudSync

end NyaTerm

import NyaTerm.Cloud.Snapshot
import NyaTerm.Lib.Program

namespace NyaTerm

inductive SnapshotUnreadableCause
  | payloadNotAuthentic
  | masterPasswordMismatch
  | unknown
  deriving DecidableEq

def SnapshotUnreadableCause.blocksRemoteOverwrite : SnapshotUnreadableCause → Bool
  | masterPasswordMismatch => true
  | _ => false

inductive CloudConflictKind
  | contentConflict
  | remoteInconsistent
  deriving DecidableEq

structure CloudConflictBranch where
  revision : String
  deviceId : String
  deviceName : Option String
  createdAtMs : Nat
  readable : Bool
  deriving DecidableEq

-- What the user is shown when they have to choose.
structure CloudConflictPreview where
  branches : List CloudConflictBranch
  observedRevisions : List String
  localContentHash : Option String
  kind : CloudConflictKind
  localPayloadHash : String
  remotePayloadHash : String
  remoteRevision : String
  remoteCreatedAtMs : Nat
  remoteDeviceId : String
  recoveryRevision : Option String
  recoveryPayloadHash : Option String
  recoveryCreatedAtMs : Option Nat
  overwriteBlocked : Bool
  deriving DecidableEq

-- Failures of a transport or of the local store that no operation tells apart are `other`.
inductive CloudSyncError
  | cancelled
  | gistCapacity
  | disabled
  | localChangedDuringSync
  | staleRemoteRevision
  | conflict (preview : CloudConflictPreview)
  | remoteNewer
  | noRemoteSnapshot
  | noNewerRemoteSnapshot
  | snapshotMissing (revision : String)
  | revisionMismatch (pointerRevision snapshotRevision : String)
  | hashMismatch (expected actual : String)
  | concurrentUpdate (expectedRevision actualRevision : Option String)
  | corruptedSnapshot (revision : String)
  | remoteSnapshotUnreadable (revision : String) (cause : SnapshotUnreadableCause)
  | remoteWriteDiverged (revision : String)
  | remote (message : String)
  | portableSnapshot (error : PortableSnapshotError)
  | json
  | other (message : String)
  deriving DecidableEq

structure LocalCloudSyncOptions where
  enabled : Bool
  deviceId : String
  deviceName : Option String
  deriving DecidableEq

-- What a device remembers of its last synchronization.
structure CloudSyncState where
  lastSyncedPayloadHash : Option String
  lastSyncedContentHash : Option String
  lastSyncedClock : Option SnapshotSyncClock
  lastAppliedRemoteRevision : Option String
  deriving DecidableEq

structure RemoteFileCapacity where
  used : Nat
  limit : Nat
  deriving DecidableEq

-- What an earlier check has found out about a snapshot that it read.
structure ValidatedSnapshot where
  contentHash : String
  remoteHasUserContent : Bool
  deriving DecidableEq

inductive RemoteDir
  | sync
  | snapshots
  | heads
  deriving DecidableEq

-- Paths below the remote root. Heads are named by the SHA-256 digest of their device, which is
-- taken to identify it.
inductive RemotePath
  -- sync/latest.redb
  | latest
  -- sync/current.redb.enc
  | current
  -- sync/heads/{digest of device}.json
  | head (device : String)
  -- sync/heads/{digest of device}.pending.json
  | pendingHead (device : String)
  -- sync/heads/{name}.json, for a name that belongs to no device
  | strayHead (name : String)
  -- sync/snapshots/{name}.redb.enc
  | snapshot (name : String)
  -- anything else
  | other (text : String)
  deriving DecidableEq

variable [SnapshotFormat]

-- What the operations ask of the remote storage, of the local store, of their caller and of the
-- machine they run on.
inductive CloudRequest
  | listFiles (dir : RemoteDir)
  | readIfExists (path : RemotePath)
  | write (path : RemotePath) (bytes : Bytes)
  | delete (path : RemotePath)
  | createDir (dir : RemoteDir)
  | fileCapacity
  | encodeSnapshot (snapshot : RawPortableSnapshot)
  | decodeSnapshot (bytes : Bytes)
  | encodePointer (pointer : RemoteSyncPointer)
  | decodePointer (bytes : Bytes)
  | buildSnapshot
  | applyChecked (snapshot : RawPortableSnapshot) (expectedContentHash : String)
      (state : CloudSyncState)
  | persistState (state : CloudSyncState)
  | verifyMasterPassword
  | checkpoint
  | beginCommit
  | beforeApply
  | currentTime
  | newRevision
  | receipt (pointer : RemoteSyncPointer)
  | recordReceipt (pointer : RemoteSyncPointer) (receipt : ValidatedSnapshot)

abbrev Answer : CloudRequest → Type
  | .listFiles _ => List RemotePath
  | .readIfExists _ => Option Bytes
  | .fileCapacity => Option RemoteFileCapacity
  | .encodeSnapshot _ => Bytes
  | .decodeSnapshot _ => RawPortableSnapshot
  | .encodePointer _ => Bytes
  | .decodePointer _ => RemoteSyncPointer
  | .buildSnapshot => RawPortableSnapshot
  | .applyChecked .. => CloudSyncState
  | .verifyMasterPassword => Option Bool
  | .currentTime => Nat
  | .newRevision => String
  | .receipt _ => Option ValidatedSnapshot
  | .write .. => Unit
  | .delete _ => Unit
  | .createDir _ => Unit
  | .persistState _ => Unit
  | .checkpoint => Unit
  | .beginCommit => Unit
  | .beforeApply => Unit
  | .recordReceipt .. => Unit

-- An operation of the snapshot protocol. Every call can fail, among other things because the
-- operation is cancelled.
abbrev CloudSync := Program CloudSyncError Answer

abbrev CloudTrace := Program.Trace CloudSyncError Answer

namespace CloudSync

open Program

def ask (request : CloudRequest) : CloudSync (Answer request) :=
  perform request

-- Errors of the snapshot format are passed on as they are.
def portable {α : Type} : Except PortableSnapshotError α → CloudSync α
  | .ok a => pure a
  | .error e => fail (.portableSnapshot e)

end CloudSync

end NyaTerm

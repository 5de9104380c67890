import NyaTerm.Cloud.Remote

namespace NyaTerm

def maxHeadBytes : Nat := 64 * 1024

def maxDevices : Nat := 256

def readbackVerifyAttempts : Nat := 3

-- Counters are 64 bits wide.
def maxCounter : Nat := 2 ^ 64 - 1

-- The errors of a file that was read but cannot be decoded.
def CloudSyncError.isDamage : CloudSyncError → Bool
  | portableSnapshot _ | json => true
  | _ => false

namespace SnapshotSyncClock

def validate (clock : SnapshotSyncClock) : Except CloudSyncError Unit :=
  if clock.counters.isEmpty ∨ clock.counters.size > maxDevices ∨
      clock.counters.toList.any fun (device, count) =>
        device.isEmpty || device.utf8ByteSize > 256 || count = 0 then
    .error (.remote "invalid cloud sync causal clock")
  else
    .ok ()

def advance (clock : SnapshotSyncClock) (device : String) : SnapshotSyncClock :=
  { clock with counters := clock.counters.insert device (clock.count device + 1) }

end SnapshotSyncClock

namespace RemoteSyncPointer

-- A snapshot without a clock was published by a client that knows none. Only a snapshot that was
-- made on top of it supersedes it.
def dominates (new old : RemoteSyncPointer) : Bool :=
  match new.syncClock, old.syncClock with
  | some new, some clock => new.strictlyDominates clock
  | some new, none => new.legacyRevision = some old.revisionId
  | none, _ => false

end RemoteSyncPointer

structure RemoteHeads where
  compatibility : Option RemoteSyncPointer
  selected : Option RemoteSyncPointer
  concurrent : Bool
  heads : List RemoteSyncPointer
  deriving DecidableEq

namespace RemoteHeads

def maximalOf (heads : List RemoteSyncPointer) : List RemoteSyncPointer :=
  heads.filter fun head => !heads.any fun other => other.dominates head

def maximal (r : RemoteHeads) : List RemoteSyncPointer :=
  maximalOf r.heads

def observedRevisions (r : RemoteHeads) : List String :=
  (r.maximal.map (·.revisionId)).insertionSort (· ≤ ·)

-- Everything that has gone into what the device and the heads have.
def mergedClock (r : RemoteHeads) (previous : Option SnapshotSyncClock) : SnapshotSyncClock :=
  let merged := (r.heads.filterMap (·.syncClock)).foldl .merge (previous.getD .empty)
  let legacy := (r.compatibility.filter (·.syncClock.isNone)).map (·.revisionId)
  { merged with legacyRevision := legacy.or merged.legacyRevision }

def nextClock (r : RemoteHeads) (previous : Option SnapshotSyncClock) (device : String) :
    Except CloudSyncError SnapshotSyncClock := do
  let clock := r.mergedClock previous
  if clock.count device ≥ maxCounter then
    throw (.remote "cloud sync device counter exhausted")
  let next := clock.advance device
  next.validate
  return next

-- A head that is listed twice has to be the same each time.
def addHead (unique : BTreeMap String RemoteSyncPointer) (head : RemoteSyncPointer) :
    Except CloudSyncError (BTreeMap String RemoteSyncPointer) :=
  if unique[head.revisionId]?.any (· ≠ head) then
    .error (.remote "conflicting metadata for the same cloud revision")
  else
    .ok (unique.insert head.revisionId head)

-- The heads of the devices together with the pointer that older clients share.
def ofHeads (heads : List RemoteSyncPointer) (compatibility : Option RemoteSyncPointer) :
    Except CloudSyncError RemoteHeads := do
  let unique ← (heads ++ compatibility.toList).foldlM addHead ∅
  let heads := unique.toList.map (·.2)
  let maximal := maximalOf heads
  let current := compatibility.bind fun latest =>
    maximal.find? (·.revisionId = latest.revisionId)
  return {
    compatibility := compatibility
    selected := current.or maximal.getLast?
    concurrent := maximal.length > 1
    heads := heads
  }

end RemoteHeads

-- Files of the directory of heads.
def RemotePath.isHead : RemotePath → Bool
  | head _ | pendingHead _ | strayHead _ => true
  | _ => false

-- Where a device keeps such a record.
def DeviceHead.path (record : DeviceHead) : RemotePath :=
  if record.committed.isNone ∧ record.pendingRevision.isSome then
    .pendingHead record.deviceId
  else
    .head record.deviceId

variable [SnapshotFormat]

def DeviceHead.decode (bytes : Bytes) : Except CloudSyncError DeviceHead := do
  if SnapshotFormat.size bytes > maxHeadBytes then
    throw (.remote "cloud sync device head is too large")
  let some record := SnapshotFormat.decodeHead bytes | throw .json
  if let some head := record.committed then
    if head.deviceId ≠ record.deviceId then
      throw (.remote "cloud sync device identity mismatch")
    let some clock := head.syncClock |
      throw (.remote "cloud sync device head has no causal clock")
    clock.validate
  return record

namespace CloudSync

open Program

-- `load_sync_pointer_from_remote`.
def loadSyncPointer : CloudSync (Option RemoteSyncPointer) := do
  let some bytes ← ask (.readIfExists .latest) | return none
  let pointer ← ask (.decodePointer bytes)
  return some pointer

def readRecordsFrom : List RemotePath → CloudSync (List DeviceHead)
  | [] => return []
  | path :: paths => do
    if path.isHead then
      let some bytes ← ask (.readIfExists path) | readRecordsFrom paths
      let record ← done (DeviceHead.decode bytes)
      if path ≠ record.path then
        fail (.remote "cloud sync device head path does not match its device")
      else
        let records ← readRecordsFrom paths
        return record :: records
    else
      readRecordsFrom paths

def readRecords : CloudSync (List DeviceHead) := do
  let paths ← ask (.listFiles .heads)
  if paths.length > maxDevices * 2 then
    fail (.remote "too many cloud sync device heads")
  else
    readRecordsFrom paths

def readDeviceHeads : CloudSync (List RemoteSyncPointer) := do
  let records ← readRecords
  return records.filterMap (·.committed)

-- The shared pointer is a cache: when it is damaged, the heads of the devices are enough.
def readCompatibility (heads : List RemoteSyncPointer) : CloudSync (Option RemoteSyncPointer) := do
  match ← loadSyncPointer.attempt with
  | .ok pointer => return pointer
  | .error e => if e.isDamage ∧ ¬heads.isEmpty then return none else fail e

def readHeads : CloudSync RemoteHeads := do
  let heads ← readDeviceHeads
  let compatibility ← readCompatibility heads
  done (RemoteHeads.ofHeads heads compatibility)

def protectedRevisions : CloudSync (List String) := do
  let records ← readRecords
  return records.flatMap fun record =>
    (record.committed.map (·.revisionId)).toList ++ record.pendingRevision.toList

def verifyRecord (path : RemotePath) (bytes : Bytes) : (attempts : Nat) → CloudSync Unit
  | 0 => fail (.remote "cloud sync device commit could not be verified")
  | attempts + 1 => do
    if (← ask (.readIfExists path)) = some bytes then
      return ()
    else
      verifyRecord path bytes attempts

def writeRecord (path : RemotePath) (record : DeviceHead) : CloudSync Unit := do
  let bytes := SnapshotFormat.encodeHead record
  if SnapshotFormat.size bytes > maxHeadBytes then
    fail (.remote "cloud sync device head is too large")
  else
    ask (.write path bytes)
    verifyRecord path bytes readbackVerifyAttempts

-- A staged snapshot is announced before it is uploaded, so that nobody collects it.
def stage (device revision : String) : CloudSync Unit :=
  writeRecord (.pendingHead device) ⟨device, none, some revision⟩

def publish (head : RemoteSyncPointer) : CloudSync Unit := do
  writeRecord (.head head.deviceId) ⟨head.deviceId, some head, none⟩
  let _ ← (ask (.delete (.pendingHead head.deviceId))).attempt

end CloudSync

end NyaTerm

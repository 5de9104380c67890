import NyaTerm.Cloud.Protocol

namespace NyaTerm

def snapshotKeepRecent : Nat := 5

def snapshotGcGracePeriodMs : Nat := 24 * 60 * 60 * 1000

namespace RemotePath

-- The text after the last slash.
def filename (text : List Char) : List Char :=
  (text.reverse.takeWhile (· ≠ '/')).reverse

def nonempty (text : List Char) : Option String :=
  if text.isEmpty then none else some (String.ofList text)

-- `snapshot_revision_from_path`: the revision that the name of a file stands for.
def snapshotRevision : RemotePath → Option String
  | snapshot name => nonempty (filename name.toList)
  | current => some "current"
  | other text => (filename text.toList).reverse |> Text.stripLiteral ".redb.enc".toList.reverse
    |>.bind fun rest => nonempty rest.reverse
  | _ => none

-- The same for files right in the directory of snapshots.
def ownSnapshotRevision : RemotePath → Option String
  | snapshot name => if '/' ∈ name.toList then none else nonempty name.toList
  | _ => none

end RemotePath

structure SnapshotGcEntry where
  path : RemotePath
  revisionId : String
  createdAtMs : Nat
  deletable : Bool
  deriving DecidableEq

-- `plan_snapshot_gc`.
def planSnapshotGc (snapshots : List SnapshotGcEntry) (latestRevision : Option String)
    (nowMs keepRecent gracePeriodMs : Nat) : List RemotePath :=
  let sorted := snapshots.insertionSort (·.createdAtMs ≤ ·.createdAtMs)
  let kept := latestRevision.toList ++ (sorted.reverse.take keepRecent).map (·.revisionId)
  ((sorted.filter (·.deletable)).filter (·.revisionId ∉ kept)).filter
    (nowMs - ·.createdAtMs > gracePeriodMs) |>.map (·.path)

variable [SnapshotFormat]

-- A snapshot with a clock has to be an ancestor of one that was read and validated: a head that is
-- only missing from a listing is still in use. Clocks of different heads are not joined.
def RawPortableSnapshot.causallyCollectable (snapshot : RawPortableSnapshot)
    (clocks : List SnapshotSyncClock) : Bool :=
  snapshot.syncClock.all fun candidate => clocks.any (·.strictlyDominates candidate)

namespace CloudSync

open Program

def authenticateClocks (seen : List String) : List RemoteSyncPointer →
    CloudSync (List SnapshotSyncClock)
  | [] => return []
  | head :: heads => do
    if head.syncClock.isSome ∧ head.revisionId ∉ seen then
      let snapshot ← readSnapshotForPointer head
      let clocks ← authenticateClocks (head.revisionId :: seen) heads
      return snapshot.syncClock.toList ++ clocks
    else
      authenticateClocks seen heads

def authenticatedCommitClocks (latest : Option RemoteSyncPointer) :
    CloudSync (List SnapshotSyncClock) := do
  let heads ← readDeviceHeads
  authenticateClocks [] (heads ++ latest.toList)

-- A snapshot that cannot be read is never deleted.
def inspectSnapshot (clocks : List SnapshotSyncClock) (path : RemotePath) (revision : String) :
    CloudSync SnapshotGcEntry := do
  let unreadable : SnapshotGcEntry := ⟨path, revision, 0, false⟩
  match ← (ask (.readIfExists path)).attempt with
  | .ok (some bytes) =>
    match ← (ask (.decodeSnapshot bytes)).attempt with
    | .ok snapshot =>
      if snapshot.revisionId = revision then
        return {
          path := path
          revisionId := revision
          createdAtMs := snapshot.createdAtMs
          deletable := !snapshot.payloadHash.isEmpty &&
            snapshot.schemaVersion = RawPortableSnapshot.fixedSchemaVersion &&
            snapshot.causallyCollectable clocks
        }
      else
        return unreadable
    | .error _ => return unreadable
  | _ => return unreadable

def inspectSnapshots (inUse : List String) (clocks : List SnapshotSyncClock) :
    List RemotePath → CloudSync (List SnapshotGcEntry)
  | [] => return []
  | path :: paths => do
    ask .checkpoint
    match path.snapshotRevision with
    | none => inspectSnapshots inUse clocks paths
    | some revision =>
      if revision ∈ inUse then
        inspectSnapshots inUse clocks paths
      else
        let entry ← inspectSnapshot clocks path revision
        let entries ← inspectSnapshots inUse clocks paths
        return entry :: entries

-- What is in use is looked up again before each deletion.
def deletePlanned (inUse : List String) (firstError : Option CloudSyncError) :
    List RemotePath → CloudSync (Option CloudSyncError)
  | [] => return firstError
  | path :: paths => do
    let revisions ← protectedRevisions
    let head ← loadSyncPointer
    let inUse := inUse ++ revisions ++ (head.map (·.revisionId)).toList
    if path.snapshotRevision.any (· ∈ inUse) then
      deletePlanned inUse firstError paths
    else
      match ← (ask (.delete path)).attempt with
      | .ok () => deletePlanned inUse firstError paths
      | .error e => deletePlanned inUse (firstError.or (some e)) paths

-- `cleanup_sync_snapshots_with_remote`.
def cleanupSyncSnapshots (latest : Option RemoteSyncPointer) : CloudSync Unit := do
  ask .checkpoint
  let revisions ← protectedRevisions
  let inUse := revisions ++ (latest.map (·.revisionId)).toList
  let clocks ← authenticatedCommitClocks latest
  let paths ← ask (.listFiles .snapshots)
  let snapshots ← inspectSnapshots inUse clocks paths
  let now ← ask .currentTime
  let planned := planSnapshotGc snapshots (latest.map (·.revisionId)) now snapshotKeepRecent
    snapshotGcGracePeriodMs
  let firstError ← deletePlanned inUse none planned
  ask .checkpoint
  match firstError with
  | none => return ()
  | some e => fail e

def countMissing : List RemotePath → CloudSync Nat
  | [] => return 0
  | path :: paths => do
    let bytes ← ask (.readIfExists path)
    let missing ← countMissing paths
    return (if bytes.isNone then 1 else 0) + missing

structure CapacityCandidate where
  createdAtMs : Nat
  path : RemotePath
  revision : String
  deriving DecidableEq

def CapacityCandidate.le (a b : CapacityCandidate) : Bool :=
  a.createdAtMs < b.createdAtMs ||
    (a.createdAtMs == b.createdAtMs && a.revision ++ ".redb.enc" ≤ b.revision ++ ".redb.enc")

def capacityCandidates (inUse : List String) (clocks : List SnapshotSyncClock) :
    List RemotePath → CloudSync (List CapacityCandidate)
  | [] => return []
  | path :: paths => do
    match path.ownSnapshotRevision with
    | none => capacityCandidates inUse clocks paths
    | some revision =>
      if revision ∈ inUse then
        capacityCandidates inUse clocks paths
      else
        let some bytes ← ask (.readIfExists path) | capacityCandidates inUse clocks paths
        match ← (ask (.decodeSnapshot bytes)).attempt with
        | .error _ => capacityCandidates inUse clocks paths
        | .ok snapshot =>
          let candidates ← capacityCandidates inUse clocks paths
          if snapshot.revisionId = revision ∧
              snapshot.schemaVersion = RawPortableSnapshot.fixedSchemaVersion ∧
              snapshot.validate = .ok () ∧ snapshot.causallyCollectable clocks then
            return ⟨snapshot.createdAtMs, path, revision⟩ :: candidates
          else
            return candidates

def freeCapacity (needed freed : Nat) (inUse : List String) :
    List CapacityCandidate → CloudSync Unit
  | [] => fail .gistCapacity
  | candidate :: candidates => do
    let head ← loadSyncPointer
    let revisions ← protectedRevisions
    let inUse := inUse ++ (head.map (·.revisionId)).toList ++ revisions
    if candidate.revision ∈ inUse then
      freeCapacity needed freed inUse candidates
    else
      ask (.delete candidate.path)
      let left ← ask (.readIfExists candidate.path)
      let freed := if left.isNone then freed + 1 else freed
      if freed ≥ needed then
        return ()
      else
        freeCapacity needed freed inUse candidates

-- The revision that the compatible copy holds, if it can be read.
def currentRevision : CloudSync (Option String) := do
  let some bytes ← ask (.readIfExists .current) | return none
  match ← (ask (.decodeSnapshot bytes)).attempt with
  | .ok snapshot => return some snapshot.revisionId
  | .error _ => return none

-- Storages with a limited number of files make room before an upload.
def reserveSnapshotCapacity (options : LocalCloudSyncOptions)
    (expected : Option RemoteSyncPointer) (targetRevision : String) : CloudSync Unit := do
  let some capacity ← ask .fileCapacity | return ()
  let additional ← countMissing [.snapshot targetRevision, .latest, .current,
    .head options.deviceId, .pendingHead options.deviceId]
  let needed := capacity.used + additional - capacity.limit
  if needed = 0 then
    return ()
  else
    let revisions ← protectedRevisions
    let clocks ← authenticatedCommitClocks expected
    let current ← currentRevision
    let inUse := revisions ++ targetRevision :: (expected.map (·.revisionId)).toList ++
      current.toList
    let paths ← ask (.listFiles .snapshots)
    let candidates ← capacityCandidates inUse clocks paths
    freeCapacity needed 0 inUse (candidates.insertionSort (CapacityCandidate.le · ·))

end CloudSync

end NyaTerm

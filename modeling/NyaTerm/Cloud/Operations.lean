import NyaTerm.Cloud.Upload

namespace NyaTerm

inductive CloudRemoteCheckDecision
  | upToDate
  | localChanged
  | autoPull
  | remoteAvailable
  | conflict
  deriving DecidableEq

inductive CloudSyncOutcome
  | upToDate
  | uploaded
  | downloaded
  | recovered
  deriving DecidableEq

structure CloudSyncResult where
  state : CloudSyncState
  pointer : Option RemoteSyncPointer
  outcome : CloudSyncOutcome
  deriving DecidableEq

def conflictPreview (localHash : String) (remote : RemoteSyncPointer) : CloudConflictPreview where
  branches := []
  observedRevisions := []
  localContentHash := none
  kind := .contentConflict
  localPayloadHash := localHash
  remotePayloadHash := remote.payloadHash
  remoteRevision := remote.revisionId
  remoteCreatedAtMs := remote.createdAtMs
  remoteDeviceId := remote.deviceId
  recoveryRevision := none
  recoveryPayloadHash := none
  recoveryCreatedAtMs := none
  overwriteBlocked := false

namespace RemoteHeads

-- Concurrent heads always have a selected one.
def requireSingle (r : RemoteHeads) (localHash : String) : Except CloudSyncError Unit :=
  if r.concurrent then
    match r.selected with
    | some selected => .error (.conflict (conflictPreview localHash selected))
    | none => .error (.other "concurrent heads")
  else
    .ok ()

end RemoteHeads

namespace CloudSyncState

variable (state : CloudSyncState)

-- A baseline that was taken without a content hash cannot prove that nothing has changed.
def localContentChanged (contentHash : String) : Bool :=
  state.lastSyncedContentHash ≠ some contentHash

def remoteChanged (pointer : RemoteSyncPointer) : Bool :=
  state.lastAppliedRemoteRevision ≠ some pointer.revisionId

def remotePrecedesBaseline (pointer : RemoteSyncPointer) : Bool :=
  match state.lastSyncedClock, pointer.syncClock with
  | some baseline, some remote => baseline.strictlyDominates remote
  | some baseline, none => baseline.legacyRevision = some pointer.revisionId
  | none, _ => false

def remoteConcurrentWithBaseline (pointer : RemoteSyncPointer) : Bool :=
  if state.lastAppliedRemoteRevision = some pointer.revisionId then
    false
  else
    match state.lastSyncedClock, pointer.syncClock with
    | some baseline, some remote =>
      !baseline.strictlyDominates remote && !remote.strictlyDominates baseline
    | some _, none => !state.remotePrecedesBaseline pointer
    | none, _ => false

def validateRemoteBaseline (pointer : RemoteSyncPointer) (localHash : String) :
    Except CloudSyncError Unit :=
  if state.remotePrecedesBaseline pointer then
    .error .staleRemoteRevision
  else if state.remoteConcurrentWithBaseline pointer then
    .error (.conflict (conflictPreview localHash pointer))
  else
    .ok ()

-- The baseline of a device whose content is that of a remote snapshot.
def synced (payloadHash contentHash : String) (pointer : RemoteSyncPointer) : CloudSyncState where
  lastSyncedPayloadHash := some payloadHash
  lastSyncedContentHash := some contentHash
  lastSyncedClock := pointer.syncClock
  lastAppliedRemoteRevision := some pointer.revisionId

-- What is left when neither side is empty and the contents differ.
def decideChanges (remoteChanged localChanged allowAutoPull : Bool) : CloudRemoteCheckDecision :=
  match remoteChanged, localChanged, allowAutoPull with
  | true, true, _ => .conflict
  | true, false, true => .autoPull
  | true, false, false => .remoteAvailable
  | false, true, _ => .localChanged
  | false, false, _ => .upToDate

-- `decide_snapshot_check` on the hash of the remote content and on whether there is any.
def decideCheck (localHash : String) (localHasContent : Bool) (remoteHash : String)
    (remoteHasContent : Bool) (pointer : RemoteSyncPointer) (allowAutoPull : Bool) :
    CloudRemoteCheckDecision :=
  if localHash = remoteHash then
    .upToDate
  else
    let localChanged := state.localContentChanged localHash
    let remoteChanged := state.remoteChanged pointer
    if remoteChanged && localChanged && !localHasContent then
      if allowAutoPull then .autoPull else .remoteAvailable
    else if remoteChanged && localChanged && !remoteHasContent then
      .localChanged
    else
      decideChanges remoteChanged localChanged allowAutoPull

end CloudSyncState

variable [SnapshotFormat]

def remoteInconsistentPreview (localHash : String) (pointer : RemoteSyncPointer)
    (recoveryCandidate : Option RawPortableSnapshot) (overwriteBlocked : Bool) :
    CloudConflictPreview where
  branches := []
  observedRevisions := []
  localContentHash := none
  kind := .remoteInconsistent
  localPayloadHash := localHash
  remotePayloadHash := pointer.payloadHash
  remoteRevision := pointer.revisionId
  remoteCreatedAtMs := pointer.createdAtMs
  remoteDeviceId := pointer.deviceId
  recoveryRevision := recoveryCandidate.map (·.revisionId)
  recoveryPayloadHash := recoveryCandidate.map (·.payloadHash)
  recoveryCreatedAtMs := recoveryCandidate.map (·.createdAtMs)
  overwriteBlocked := overwriteBlocked

-- What an operation has looked at before it decides.
structure PreparedSync where
  localSnapshot : RawPortableSnapshot
  heads : RemoteHeads
  remote : Option RawPortableSnapshot

structure CloudSyncCheck where
  decision : CloudRemoteCheckDecision
  pointer : Option RemoteSyncPointer
  state : CloudSyncState
  prepared : PreparedSync

-- What a push has read when it decides.
structure PushView where
  heads : RemoteHeads
  localSnapshot : RawPortableSnapshot
  localContent : String
  remoteSnapshot : Option RawPortableSnapshot

-- What a pull has read when it decides.
structure PullView where
  heads : RemoteHeads
  latest : RemoteSyncPointer
  localSnapshot : RawPortableSnapshot
  localContent : String
  remoteSnapshot : RawPortableSnapshot

-- What to do once everything has been read: nothing but remember it, or go on.
inductive SyncDecision
  | remember (state : CloudSyncState)
  | proceed
  deriving DecidableEq

namespace CloudSyncState

variable (state : CloudSyncState)

def contentHash (snapshot : RawPortableSnapshot) : Except CloudSyncError String :=
  snapshot.syncContentHash.mapError .portableSnapshot

-- The remote side has to be one branch that continues what the device has seen.
def requireSuccessor (heads : RemoteHeads) (localHash : String) : Except CloudSyncError Unit := do
  heads.requireSingle localHash
  if let some pointer := heads.selected then
    state.validateRemoteBaseline pointer localHash

-- Whether a remote snapshot that could be read has this content.
def hasContent (content : String) : Option RawPortableSnapshot → Except CloudSyncError Bool
  | none => .ok false
  | some snapshot => (contentHash snapshot).map (· = content)

-- A remote snapshot without user data has nothing to lose.
def decidePushChanges (view : PushView) (pointer : RemoteSyncPointer) :
    Except CloudSyncError SyncDecision :=
  match state.remoteChanged pointer, state.localContentChanged view.localContent with
  | false, false => .ok (.remember state)
  | false, true => .ok .proceed
  | true, false => .error .remoteNewer
  | true, true =>
    if view.remoteSnapshot.any (·.hasUserContent) then
      .error (.conflict (conflictPreview view.localSnapshot.payloadHash pointer))
    else
      .ok .proceed

def decidePush (force : Bool) (view : PushView) : Except CloudSyncError SyncDecision :=
  match force, view.heads.selected with
  | _, none => .ok .proceed
  | true, _ => .ok .proceed
  | false, some pointer => do
    if ← hasContent view.localContent view.remoteSnapshot then
      return .remember (synced view.localSnapshot.payloadHash view.localContent pointer)
    else
      state.decidePushChanges view pointer

-- A forced pull of a branch that does not continue what the device has seen.
def requiresResolution (view : PullView) : Bool :=
  view.heads.concurrent || state.remotePrecedesBaseline view.latest ||
    state.remoteConcurrentWithBaseline view.latest

-- Without user data there is nothing to lose here.
def decidePullChanges (force : Bool) (view : PullView) : Except CloudSyncError SyncDecision :=
  let localChanged := state.localContentChanged view.localContent
  let remoteChanged := state.remoteChanged view.latest
  if remoteChanged && localChanged && !force && view.localSnapshot.hasUserContent then
    if view.remoteSnapshot.hasUserContent then
      .error (.conflict (conflictPreview view.localSnapshot.payloadHash view.latest))
    else
      .error .noNewerRemoteSnapshot
  else if !remoteChanged && !force then
    if localChanged then .error .noNewerRemoteSnapshot else .ok (.remember state)
  else
    .ok .proceed

def decidePull (force : Bool) (view : PullView) : Except CloudSyncError SyncDecision := do
  let comparable := if state.requiresResolution view then none else some view.remoteSnapshot
  if ← hasContent view.localContent comparable then
    return .remember (synced view.localSnapshot.payloadHash view.localContent view.latest)
  else
    state.decidePullChanges force view

end CloudSyncState

namespace CloudSync

open Program CloudSyncState

def ensureEnabled (options : LocalCloudSyncOptions) : CloudSync Unit :=
  if options.enabled then pure () else fail .disabled

def ensureRemoteLayout : CloudSync Unit := do
  ask (.createDir .sync)
  ask (.createDir .snapshots)
  ask (.createDir .heads)

def prepareSync : Option PreparedSync → CloudSync PreparedSync
  | some prepared => return prepared
  | none => do
    let localSnapshot ← ask .buildSnapshot
    let heads ← readHeads
    return ⟨localSnapshot, heads, none⟩

-- The snapshot of the selected head. A forced push may go on without it.
def pushRemoteSnapshot (options : LocalCloudSyncOptions) (force : Bool)
    (cached : Option RawPortableSnapshot) (latest : Option RemoteSyncPointer)
    (localHash : String) : CloudSync (Option RawPortableSnapshot) := do
  match cached, latest with
  | some snapshot, _ => return some snapshot
  | none, none => return none
  | none, some pointer =>
    match ← resolveRemoteSnapshot options pointer with
    | .current snapshot | .legacyMigrated snapshot => return some snapshot
    | .inconsistent pointer recoveryCandidate overwriteBlocked =>
      if force && !overwriteBlocked then
        return none
      else
        fail (.conflict
          (remoteInconsistentPreview localHash pointer recoveryCandidate overwriteBlocked))

def uploadAndCommit (options : LocalCloudSyncOptions) (state : CloudSyncState) (force : Bool)
    (view : PushView) : CloudSync RemoteSyncPointer := do
  let clock ← done (view.heads.nextClock state.lastSyncedClock options.deviceId)
  let snapshot :=
    { view.localSnapshot with deviceName := options.deviceName, syncClock := some clock }
  let uploaded ← uploadSyncSnapshot options snapshot view.heads.selected
  let pointer := RemoteSyncPointer.ofSnapshot snapshot
  (ensureRemoteHeadUnchanged view.heads.compatibility).when !force
  commitHead pointer uploaded
  return pointer

-- The first half of a push: everything that it looks at.
def pushView (options : LocalCloudSyncOptions) (state : CloudSyncState) (force : Bool)
    (prepared : Option PreparedSync) : CloudSync PushView := do
  ask .checkpoint
  ensureEnabled options
  ensureRemoteLayout
  let prepared ← prepareSync prepared
  let heads := prepared.heads
  let projected ← portable prepared.localSnapshot.projectFixed
  let localSnapshot ← portable projected.recalculateHash
  let localContent ← portable localSnapshot.syncContentHash
  (done (state.requireSuccessor heads localSnapshot.payloadHash)).when !force
  let remoteSnapshot ←
    pushRemoteSnapshot options force prepared.remote heads.selected localSnapshot.payloadHash
  return ⟨heads, localSnapshot, localContent, remoteSnapshot⟩

-- `push_snapshot_prepared`.
def pushPrepared (options : LocalCloudSyncOptions) (state : CloudSyncState) (force : Bool)
    (prepared : Option PreparedSync) : CloudSync CloudSyncResult := do
  let view ← pushView options state force prepared
  match ← done (state.decidePush force view) with
  | .remember next =>
    ask (.persistState next)
    return ⟨next, view.heads.selected, .upToDate⟩
  | .proceed =>
    let pointer ← uploadAndCommit options state force view
    let next := synced pointer.payloadHash view.localContent pointer
    ask (.persistState next)
    return ⟨next, some pointer, .uploaded⟩

def pullRemoteSnapshot (options : LocalCloudSyncOptions) (cached : Option RawPortableSnapshot)
    (latest : RemoteSyncPointer) (localHash : String) : CloudSync RawPortableSnapshot := do
  match cached with
  | some snapshot => return snapshot
  | none =>
    match ← resolveRemoteSnapshot options latest with
    | .current snapshot | .legacyMigrated snapshot => return snapshot
    | .inconsistent pointer recoveryCandidate overwriteBlocked =>
      fail (.conflict
        (remoteInconsistentPreview localHash pointer recoveryCandidate overwriteBlocked))

-- What a pull applies, and the head that it belongs to. Taking one of several branches publishes it
-- as a successor of all of them.
def takeBranch (options : LocalCloudSyncOptions) (state : CloudSyncState) (view : PullView) :
    CloudSync (RawPortableSnapshot × RemoteSyncPointer) :=
  if state.requiresResolution view then do
    let projected ← portable view.remoteSnapshot.projectFixed
    let revision ← ask .newRevision
    let now ← ask .currentTime
    let clock ← done (view.heads.nextClock state.lastSyncedClock options.deviceId)
    let snapshot ← portable ({ projected with
      revisionId := revision
      createdAtMs := now
      deviceId := options.deviceId
      deviceName := options.deviceName
      syncClock := some clock }).recalculateHash
    let uploaded ← uploadSyncSnapshot options snapshot (some view.latest)
    commitHead (.ofSnapshot snapshot) uploaded
    return (snapshot, .ofSnapshot snapshot)
  else
    return (view.remoteSnapshot, view.latest)

-- The first half of a pull: everything that it looks at.
def pullView (options : LocalCloudSyncOptions) (state : CloudSyncState) (force : Bool)
    (prepared : Option PreparedSync) : CloudSync PullView := do
  ask .checkpoint
  ensureEnabled options
  ensureRemoteLayout
  let prepared ← prepareSync prepared
  let heads := prepared.heads
  let some latest := heads.selected | fail .noRemoteSnapshot
  (done (state.validateRemoteBaseline latest prepared.localSnapshot.payloadHash)).when !force
  let localSnapshot ← portable prepared.localSnapshot.recalculateHash
  (done (heads.requireSingle localSnapshot.payloadHash)).when !force
  let remoteSnapshot ← pullRemoteSnapshot options prepared.remote latest localSnapshot.payloadHash
  let localContent ← portable localSnapshot.syncContentHash
  return ⟨heads, latest, localSnapshot, localContent, remoteSnapshot⟩

-- `pull_snapshot_prepared`.
def pullPrepared (options : LocalCloudSyncOptions) (state : CloudSyncState) (force : Bool)
    (prepared : Option PreparedSync) : CloudSync CloudSyncResult := do
  let view ← pullView options state force prepared
  match ← done (state.decidePull force view) with
  | .remember next =>
    ask (.persistState next)
    return ⟨next, some view.latest, .upToDate⟩
  | .proceed =>
    ask .beforeApply
    let (snapshot, pointer) ← takeBranch options state view
    let next := { state with
      lastSyncedClock := pointer.syncClock
      lastAppliedRemoteRevision := some snapshot.revisionId }
    let applied ← ask (.applyChecked snapshot view.localContent next)
    return ⟨applied, some pointer, .downloaded⟩

-- What a check knows of the remote content: from an earlier check, or by reading the snapshot.
def checkRemoteSnapshot (options : LocalCloudSyncOptions) (pointer : RemoteSyncPointer)
    (localHash : String) : CloudSync (ValidatedSnapshot × Option RawPortableSnapshot) := do
  match ← ask (.receipt pointer) with
  | some receipt => return (receipt, none)
  | none =>
    match ← resolveRemoteSnapshot options pointer with
    | .current snapshot | .legacyMigrated snapshot =>
      let remoteContent ← done (contentHash snapshot)
      let receipt := ⟨remoteContent, snapshot.hasUserContent⟩
      ask (.recordReceipt pointer receipt)
      return (receipt, some snapshot)
    | .inconsistent pointer recoveryCandidate overwriteBlocked =>
      fail (.conflict
        (remoteInconsistentPreview localHash pointer recoveryCandidate overwriteBlocked))

-- `check_snapshot_inner`.
def checkInner (options : LocalCloudSyncOptions) (state : CloudSyncState) (allowAutoPull : Bool) :
    CloudSync CloudSyncCheck := do
  ensureEnabled options
  let built ← ask .buildSnapshot
  let localSnapshot ← portable built.recalculateHash
  let heads ← readHeads
  done (heads.requireSingle localSnapshot.payloadHash)
  let some pointer := heads.selected |
    return ⟨.localChanged, none, state, ⟨localSnapshot, heads, none⟩⟩
  done (state.validateRemoteBaseline pointer localSnapshot.payloadHash)
  let (receipt, remoteSnapshot) ← checkRemoteSnapshot options pointer localSnapshot.payloadHash
  let localContent ← portable localSnapshot.syncContentHash
  let decision := state.decideCheck localContent localSnapshot.hasUserContent receipt.contentHash
    receipt.remoteHasUserContent pointer allowAutoPull
  if decision = .conflict then
    fail (.conflict (conflictPreview localSnapshot.payloadHash pointer))
  else
    let checked := if decision = .upToDate then
        synced localSnapshot.payloadHash localContent pointer
      else
        state
    return ⟨decision, some pointer, checked, ⟨localSnapshot, heads, remoteSnapshot⟩⟩

-- `recover_current_remote_snapshot`.
def recoverCurrentRemoteSnapshot (options : LocalCloudSyncOptions) :
    CloudSync RawPortableSnapshot := do
  let some current ← readCurrent | fail (.snapshotMissing "current")
  let heads ← readHeads
  let projected ← portable current.projectFixed
  let revision ← ask .newRevision
  let now ← ask .currentTime
  let clock ← done (heads.nextClock none options.deviceId)
  let snapshot ← portable ({ projected with
    revisionId := revision
    deviceId := options.deviceId
    createdAtMs := now
    syncClock := some clock }).recalculateHash
  let bytes ← uploadSyncSnapshot options snapshot heads.compatibility
  ensureRemoteHeadUnchanged heads.compatibility
  commitHead (.ofSnapshot snapshot) bytes
  return snapshot

-- `recover_current_snapshot_with_remote`.
def recover (options : LocalCloudSyncOptions) : CloudSync CloudSyncResult := do
  ask .checkpoint
  ensureEnabled options
  ensureRemoteLayout
  let localSnapshot ← ask .buildSnapshot
  let localContent ← portable localSnapshot.syncContentHash
  let snapshot ← recoverCurrentRemoteSnapshot options
  let pointer := RemoteSyncPointer.ofSnapshot snapshot
  let state : CloudSyncState := {
    lastSyncedPayloadHash := none
    lastSyncedContentHash := none
    lastSyncedClock := pointer.syncClock
    lastAppliedRemoteRevision := some pointer.revisionId
  }
  let applied ← ask (.applyChecked snapshot localContent state)
  return ⟨applied, some pointer, .recovered⟩

end CloudSync

end NyaTerm

import NyaTerm.Cloud.Store

namespace NyaTerm

open Program

-- How snapshots and shared pointers are read from files. Files are encrypted, and a payload hash is
-- assumed to tell user data from its absence.
class SnapshotCodec [SnapshotFormat] where
  decodeSnapshot : Bytes → Option RawPortableSnapshot
  decodePointer : Bytes → Option RemoteSyncPointer
  hasUserContent_of_hash {b b' : Bytes} {s s' : RawPortableSnapshot} :
    decodeSnapshot b = some s → decodeSnapshot b' = some s' →
    s.sourcePayloadHash = s'.sourcePayloadHash → s.hasUserContent = s'.hasUserContent

-- Files of the sample format can be read if their hash is right.
@[reducible]
def SnapshotCodec.sample : @SnapshotCodec SnapshotFormat.sample :=
  let _ := SnapshotFormat.sample
  {
    decodeSnapshot
      | .snapshot info entities =>
        if info.snapshotKind = .sync ∧ info.payloadHash = SnapshotFormat.sampleHash entities then
          some ⟨info, entities, none⟩
        else
          none
      | _ => none
    decodePointer
      | .pointer pointer => some pointer
      | _ => none
    hasUserContent_of_hash := by
      intro b b' s s' hb hb' hs
      cases b <;> cases b' <;> simp only [reduceCtorEq, Option.ite_none_right_eq_some] at hb hb'
      obtain ⟨⟨hk, hh⟩, ⟨⟩⟩ := hb
      obtain ⟨⟨hk', hh'⟩, ⟨⟩⟩ := hb'
      have he := SnapshotFormat.sampleHash_injective (hh.symm.trans (Eq.trans hs hh'))
      simp [RawPortableSnapshot.hasUserContent, hk, hk', he]
  }

variable [SnapshotFormat]

-- The devices and the storage that they share.
structure Fleet where
  files : RemotePath → Option Bytes
  stores : String → LocalStore
  -- what each device has found out in its checks
  receipts : String → List (RemoteSyncPointer × ValidatedSnapshot)
  -- the device that a revision was made by
  issued : String → Option String
  -- revisions that were made by older clients
  legacy : List String
  -- what has happened so far: the heads that were published, the newest first, the revisions that
  -- each device has applied, and all the answers that it was given
  published : List RemoteSyncPointer
  applied : String → List String
  log : String → CloudTrace

namespace Fleet

variable (w : Fleet) (device : String)

def put (path : RemotePath) (bytes : Bytes) : Fleet :=
  { w with
    files := Function.update w.files path (some bytes)
    published := match path with
      | .head _ => ((SnapshotFormat.decodeHead bytes).bind (·.committed)).toList ++ w.published
      | _ => w.published }

def remove (path : RemotePath) : Fleet :=
  { w with files := Function.update w.files path none }

def issue (revision : String) : Fleet :=
  { w with issued := Function.update w.issued revision (some device) }

def save (store : LocalStore) : Fleet :=
  { w with stores := Function.update w.stores device store }

def apply (revision : String) (store : LocalStore) : Fleet :=
  { w.save device store with
    applied := Function.update w.applied device (revision :: w.applied device) }

def keepReceipt (pointer : RemoteSyncPointer) (receipt : ValidatedSnapshot) : Fleet :=
  { w with
    receipts := Function.update w.receipts device ((pointer, receipt) :: w.receipts device) }

def record (event : Event CloudSyncError Answer) : Fleet :=
  { w with log := Function.update w.log device (w.log device ++ [event]) }

-- Nobody has made such a revision.
def Fresh (revision : String) : Prop :=
  w.issued revision = none ∧ revision ∉ w.legacy

end Fleet

-- Calls whose answers do not matter here.
def CloudRequest.isOther : CloudRequest → Bool
  | listFiles .heads => false
  | listFiles _ | createDir _ | fileCapacity | encodeSnapshot _ | verifyMasterPassword | checkpoint
  | beginCommit | beforeApply | currentTime => true
  | _ => false

namespace Fleet

variable [SnapshotCodec]

-- What a call of a device does. Every call can fail, and a write whose answer is lost has been
-- carried out all the same.
inductive Effects (w : Fleet) (device : String) :
    (c : CloudRequest) → Except CloudSyncError (Answer c) → Fleet → Prop
  | failed {c error} : Effects w device c (.error error) w
  | list {paths} (hp : ∀ path, path ∈ paths ↔ path.isHead ∧ (w.files path).isSome) :
    Effects w device (.listFiles .heads) (.ok paths) w
  | read {path} : Effects w device (.readIfExists path) (.ok (w.files path)) w
  | write {path bytes x} : Effects w device (.write path bytes) x (w.put path bytes)
  | delete {path x} : Effects w device (.delete path) x (w.remove path)
  | decodeSnapshot {bytes snapshot} (hd : SnapshotCodec.decodeSnapshot bytes = some snapshot) :
    Effects w device (.decodeSnapshot bytes) (.ok snapshot) w
  | encodePointer {pointer bytes} (hd : SnapshotCodec.decodePointer bytes = some pointer) :
    Effects w device (.encodePointer pointer) (.ok bytes) w
  | decodePointer {bytes pointer} (hd : SnapshotCodec.decodePointer bytes = some pointer) :
    Effects w device (.decodePointer bytes) (.ok pointer) w
  | build {snapshot} (hb : (w.stores device).Builds device snapshot)
    (hf : w.Fresh snapshot.revisionId) :
    Effects w device .buildSnapshot (.ok snapshot) (w.issue device snapshot.revisionId)
  | newRevision {revision} (hf : w.Fresh revision) :
    Effects w device .newRevision (.ok revision) (w.issue device revision)
  | apply {snapshot expected next x store}
    (hs : (w.stores device).Serves device (.applyChecked snapshot expected next) x store)
    (he : (∃ saved, x = .ok saved) ∨ store ≠ w.stores device) :
    Effects w device (.applyChecked snapshot expected next) x
      (w.apply device snapshot.revisionId store)
  | persist {next x store} (hs : (w.stores device).Serves device (.persistState next) x store) :
    Effects w device (.persistState next) x (w.save device store)
  | receipt {pointer found} (hr : ∀ receipt ∈ found, (pointer, receipt) ∈ w.receipts device) :
    Effects w device (.receipt pointer) (.ok found) w
  | recordReceipt {pointer receipt x} :
    Effects w device (.recordReceipt pointer receipt) x (w.keepReceipt device pointer receipt)
  | other {c x} (hc : c.isOther) : Effects w device c x w

def Answers (w : Fleet) (device : String) (c : CloudRequest) (x : Except CloudSyncError (Answer c))
    (w' : Fleet) : Prop :=
  ∃ w₁, w.Effects device c x w₁ ∧ w' = w₁.record device ⟨c, x⟩

-- Between the operations and during them, the users go on working.
def Edits (w w' : Fleet) : Prop :=
  ∃ device store, (w.stores device).Edits store ∧ w' = w.save device store

-- A fleet that has not used heads so far. There may be a shared pointer of an older client, and
-- devices may have applied what it stands for.
structure Initial (w : Fleet) : Prop where
  heads : ∀ path, path.isHead → w.files path = none
  latest : ∀ bytes pointer, w.files .latest = some bytes →
    SnapshotCodec.decodePointer bytes = some pointer →
    pointer.syncClock = none ∧ pointer.revisionId ∈ w.legacy
  published : w.published = []
  receipts : ∀ device, w.receipts device = []
  log : ∀ device, w.log device = []
  clock : ∀ device, (w.stores device).state.lastSyncedClock = none
  revision : ∀ device, ∀ revision ∈ (w.stores device).state.lastAppliedRemoteRevision,
    revision ∈ w.applied device ∧ revision ∈ w.legacy

end Fleet

inductive CloudOperation
  | push (force : Bool)
  | pull (force : Bool)
  | check (allowAutoPull : Bool)
  | autoSync (autoPush allowAutoPull : Bool)
  | resolve (request : CloudResolutionRequest)
  | recover
  | cleanup (latest : Option RemoteSyncPointer)

namespace CloudOperation

-- Operations that have to spare what they do not know. In all others the user insists.
def isCareful : CloudOperation → Bool
  | push force | pull force => !force
  | resolve _ | recover => false
  | _ => true

abbrev Result : CloudOperation → Type
  | push _ | pull _ | resolve _ | recover => CloudSyncResult
  | check _ => CloudSyncCheck
  | autoSync .. | cleanup _ => Unit

end CloudOperation

-- An operation with what it is called with.
structure CloudCall where
  options : LocalCloudSyncOptions
  state : CloudSyncState
  operation : CloudOperation

open CloudSync in
def CloudCall.program : (call : CloudCall) → CloudSync call.operation.Result
  | ⟨options, state, .push force⟩ => CloudSync.push options state force
  | ⟨options, state, .pull force⟩ => CloudSync.pull options state force
  | ⟨options, state, .check allowAutoPull⟩ => CloudSync.check options state allowAutoPull
  | ⟨options, state, .autoSync autoPush allowAutoPull⟩ =>
    CloudSync.autoSync options state autoPush allowAutoPull
  | ⟨options, state, .resolve request⟩ => CloudSync.resolve options state request
  | ⟨options, _, .recover⟩ => CloudSync.recover options
  | ⟨_, _, .cleanup latest⟩ => cleanupSyncSnapshots latest

-- Any number of devices, each of them with at most one operation under way, out of those that are
-- allowed. An operation begins with what the device remembers.
def fleetSystem [SnapshotCodec] (allowed : CloudOperation → Prop) :
    System CloudSyncError Answer where
  World := Fleet
  Actor := String
  Op := CloudCall
  Result call := call.operation.Result
  program := CloudCall.program
  Starts w device call := allowed call.operation ∧ call.options.deviceId = device ∧
    call.state = (w.stores device).state
  Answers := Fleet.Answers
  Moves := Fleet.Edits

instance [SnapshotCodec] {allowed : CloudOperation → Prop} :
    DecidableEq (fleetSystem allowed).Actor :=
  inferInstanceAs (DecidableEq String)

end NyaTerm

import NyaTerm.Cloud.Conflict
import NyaTerm.Lib.System

namespace NyaTerm

variable [SnapshotFormat]

-- Calls that the local store answers.
def CloudRequest.isLocal : CloudRequest → Bool
  | buildSnapshot | applyChecked .. | persistState _ => true
  | _ => false

-- What a device keeps: the documents that the user edits, and what it remembers of its last
-- synchronization.
structure LocalStore where
  entities : Entities
  state : CloudSyncState

namespace LocalStore

-- `build_fixed_sync_snapshot`, with the revision and the time that the snapshot gets.
def buildFixedSyncSnapshot (store : LocalStore) (device appVersion revision : String) (now : Nat) :
    Except PortableSnapshotError RawPortableSnapshot :=
  (RawPortableSnapshot.sync revision device appVersion now store.entities).projectFixed

def Builds (store : LocalStore) (device : String) (snapshot : RawPortableSnapshot) : Prop :=
  ∃ appVersion revision now,
    store.buildFixedSyncSnapshot device appVersion revision now = .ok snapshot

def HasContent (store : LocalStore) (device content : String) : Prop :=
  ∃ snapshot, store.Builds device snapshot ∧ snapshot.syncContentHash = .ok content

-- What is saved after a snapshot was applied: the baseline that belongs to the snapshot, with the
-- hashes of what the documents have become.
def Normalizes (store : LocalStore) (device : String) (next : CloudSyncState) : Prop :=
  ∃ built applied content, store.Builds device built ∧ built.recalculateHash = .ok applied ∧
    applied.syncContentHash = .ok content ∧ store.state = { next with
      lastSyncedContentHash := some content
      lastSyncedPayloadHash := some applied.payloadHash }

-- How the store of a device answers. The jobs of a store do not overlap. A snapshot is applied by
-- one job: it compares the content, replaces the documents and saves the baseline. Only the
-- comparison comes before any change, so that a failure can leave the documents replaced, with the
-- new baseline or without it. What the documents become is left open.
inductive Serves (device : String) (store : LocalStore) :
    (c : CloudRequest) → Except CloudSyncError (Answer c) → LocalStore → Prop
  | build {snapshot} (hb : store.Builds device snapshot) :
    Serves device store .buildSnapshot (.ok snapshot) store
  | apply {snapshot expected next} {store' : LocalStore} (hc : store.HasContent device expected)
    (hn : store'.Normalizes device next) :
    Serves device store (.applyChecked snapshot expected next) (.ok store'.state) store'
  | applyUnsaved {snapshot expected next error} (hc : store.HasContent device expected)
    (entities : Entities) : Serves device store (.applyChecked snapshot expected next) (.error error)
      { store with entities := entities }
  | applyUnseen {snapshot expected next error} {store' : LocalStore}
    (hc : store.HasContent device expected) (hn : store'.Normalizes device next) :
    Serves device store (.applyChecked snapshot expected next) (.error error) store'
  | persist {next} :
    Serves device store (.persistState next) (.ok ()) { store with state := next }
  | persistUnseen {next error} :
    Serves device store (.persistState next) (.error error) { store with state := next }
  | failed {c error} (hc : c.isLocal) : Serves device store c (.error error) store

-- Between the jobs the user goes on working.
def Edits (store store' : LocalStore) : Prop :=
  store'.state = store.state

end LocalStore

namespace CloudSync

-- The answers that one operation gets, whatever the remote storage holds and whoever else uses it.
inductive Alone (device : String) (store : LocalStore) :
    (c : CloudRequest) → Except CloudSyncError (Answer c) → LocalStore → Prop
  | store {c x store'} (h : store.Serves device c x store') : Alone device store c x store'
  | elsewhere {c x} (h : c.isLocal = false) : Alone device store c x store

-- A pull on a device whose user goes on working.
def pullSystem (options : LocalCloudSyncOptions) (state : CloudSyncState) (force : Bool) :
    System CloudSyncError Answer where
  World := LocalStore
  Actor := Unit
  Op := Unit
  Result _ := CloudSyncResult
  program _ := pull options state force
  Starts _ _ _ := True
  Answers store _ := Alone options.deviceId store
  Moves := LocalStore.Edits

instance {options : LocalCloudSyncOptions} {state : CloudSyncState} {force : Bool} :
    DecidableEq (pullSystem options state force).Actor :=
  inferInstanceAs (DecidableEq Unit)

end CloudSync

end NyaTerm

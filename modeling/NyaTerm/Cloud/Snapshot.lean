import NyaTerm.Sync.Schema

open Std

namespace NyaTerm

-- How many snapshots of each device have gone into a snapshot. A device that is not listed counts
-- as zero.
structure SnapshotSyncClock where
  counters : BTreeMap String Nat
  legacyRevision : Option String
  deriving DecidableEq

namespace SnapshotSyncClock

def empty : SnapshotSyncClock := ⟨∅, none⟩

def count (clock : SnapshotSyncClock) (device : String) : Nat :=
  clock.counters.getD device 0

def strictlyDominates (clock other : SnapshotSyncClock) : Bool :=
  (other.counters.toList.all fun (device, count) => clock.count device ≥ count) &&
    clock.counters.toList.any fun (device, count) => count > other.count device

-- A counter takes the larger of its two values. The first known legacy revision is kept.
def merge (clock other : SnapshotSyncClock) : SnapshotSyncClock where
  counters := other.counters.toList.foldl (fun counters (device, count) =>
    counters.alter device fun current => some (current.elim count (max · count))) clock.counters
  legacyRevision := clock.legacyRevision.or other.legacyRevision

end SnapshotSyncClock

structure RemoteSyncPointer where
  schemaVersion : Nat
  revisionId : String
  createdAtMs : Nat
  payloadHash : String
  deviceId : String
  appVersion : String
  syncClock : Option SnapshotSyncClock
  deriving DecidableEq

-- What a device announces: the snapshot it has published last, or one that it is about to upload.
structure DeviceHead where
  deviceId : String
  committed : Option RemoteSyncPointer
  pendingRevision : Option String
  deriving DecidableEq

inductive PortableSnapshotError
  | decrypt
  | missingMasterPassword
  | unsupportedEncryptionVersion (version : Nat)
  | invalidEncryptionEnvelope
  | unsupportedVersion (version : Nat)
  | payloadHashMismatch
  | entitiesHashMismatch
  | corruptPayload
  | other (message : String)
  deriving DecidableEq

inductive PortableSnapshotKind
  | sync
  | backup
  deriving DecidableEq

structure PortableSnapshotMeta where
  schemaVersion : Nat
  snapshotKind : PortableSnapshotKind
  revisionId : String
  deviceId : String
  deviceName : Option String
  createdAtMs : Nat
  payloadHash : String
  entitiesHash : Option String
  syncClock : Option SnapshotSyncClock
  appVersion : String
  deriving DecidableEq

-- The formats that other crates and the sync schema define. The documents of a snapshot stay
-- opaque: they have a fixed projection, two hashes, and fields that belong to the user or none.
-- Hashes are assumed to tell user data from its absence.
class SnapshotFormat where
  Entities : Type
  entitiesEq : DecidableEq Entities
  -- the documents of `project_fixed_sync_snapshot`, for a snapshot of this schema version
  projectEntities : Nat → Entities → Except PortableSnapshotError Entities
  calculatePayloadHash : Entities → Except PortableSnapshotError String
  calculateEntitiesHash : Entities → Except PortableSnapshotError String
  -- `has_user_content` of a sync snapshot and of a backup
  holdsSyncFields : Entities → Bool
  holdsBackupContent : Entities → Bool
  holdsSyncFields_of_hash {v w : Nat} {d d' e e' : Entities} {h : String} :
    projectEntities v d = .ok e → projectEntities w d' = .ok e' →
    calculateEntitiesHash e = .ok h → calculateEntitiesHash e' = .ok h →
    holdsSyncFields d = holdsSyncFields d'
  -- what is stored remotely
  Bytes : Type
  bytesEq : DecidableEq Bytes
  size : Bytes → Nat
  encodeHead : DeviceHead → Bytes
  decodeHead : Bytes → Option DeviceHead
  decodeHead_encodeHead (head : DeviceHead) : decodeHead (encodeHead head) = some head

export SnapshotFormat (Entities Bytes)

-- A format to evaluate the protocol on: the documents are a number, zero without user data, and
-- files are kept as what they encode.
namespace SnapshotFormat

inductive SampleBytes
  | head (head : DeviceHead)
  | pointer (pointer : RemoteSyncPointer)
  | snapshot (info : PortableSnapshotMeta) (entities : Nat)
  deriving DecidableEq

def sampleHash (entities : Nat) : String :=
  String.ofList (List.replicate entities 'h')

theorem sampleHash_injective (h : sampleHash m = sampleHash n) : m = n := by
  simpa using congrArg List.length (String.ofList_injective h)

@[reducible]
def sample : SnapshotFormat where
  Entities := Nat
  entitiesEq := inferInstance
  projectEntities _ entities := .ok entities
  calculatePayloadHash entities := .ok (sampleHash entities)
  calculateEntitiesHash entities := .ok (sampleHash entities)
  holdsSyncFields entities := entities ≠ 0
  holdsBackupContent entities := entities ≠ 0
  holdsSyncFields_of_hash := by
    rintro v w d d' e e' h ⟨⟩ ⟨⟩ h₁ h₂
    obtain rfl := sampleHash_injective (Except.ok.inj (h₁.trans h₂.symm))
    rfl
  Bytes := SampleBytes
  bytesEq := inferInstance
  size _ := 64
  encodeHead := .head
  decodeHead
    | .head head => some head
    | _ => none
  decodeHead_encodeHead _ := rfl

end SnapshotFormat

variable [SnapshotFormat]

instance : DecidableEq Entities := SnapshotFormat.entitiesEq

instance : DecidableEq Bytes := SnapshotFormat.bytesEq

structure RawPortableSnapshot extends PortableSnapshotMeta where
  entities : Entities
  -- the hash that a migrated snapshot had before its migration
  migratedPayloadHash : Option String
  deriving DecidableEq

namespace RawPortableSnapshot

open SnapshotFormat

def currentSchemaVersion : Nat := 3

def fixedSchemaVersion : Nat := 4

-- `RawPortableSnapshot::sync` with the given documents.
def sync (revision device appVersion : String) (createdAtMs : Nat) (entities : Entities) :
    RawPortableSnapshot where
  schemaVersion := currentSchemaVersion
  snapshotKind := .sync
  revisionId := revision
  deviceId := device
  deviceName := none
  createdAtMs := createdAtMs
  payloadHash := ""
  entitiesHash := none
  syncClock := none
  appVersion := appVersion
  entities := entities
  migratedPayloadHash := none

def recalculateHash (snapshot : RawPortableSnapshot) :
    Except PortableSnapshotError RawPortableSnapshot := do
  let payloadHash ← calculatePayloadHash snapshot.entities
  let entitiesHash ← calculateEntitiesHash snapshot.entities
  return {
    snapshot with
    payloadHash := payloadHash
    entitiesHash := some entitiesHash
    migratedPayloadHash := none
  }

def sourcePayloadHash (snapshot : RawPortableSnapshot) : String :=
  snapshot.migratedPayloadHash.getD snapshot.payloadHash

def projectFixed (source : RawPortableSnapshot) :
    Except PortableSnapshotError RawPortableSnapshot := do
  let entities ← projectEntities source.schemaVersion source.entities
  recalculateHash {
    source with
    snapshotKind := .sync
    schemaVersion := fixedSchemaVersion
    entities := entities
    migratedPayloadHash := none
  }

def syncContentHash (snapshot : RawPortableSnapshot) : Except PortableSnapshotError String := do
  match snapshot.snapshotKind with
  | .sync => return "entities-v1:" ++ (← calculateEntitiesHash (← snapshot.projectFixed).entities)
  | .backup => return "entities-v1:" ++ (← calculateEntitiesHash snapshot.entities)

def hasUserContent (snapshot : RawPortableSnapshot) : Bool :=
  match snapshot.snapshotKind with
  | .sync => holdsSyncFields snapshot.entities
  | .backup => holdsBackupContent snapshot.entities

-- `validate_raw_snapshot`.
def validate (snapshot : RawPortableSnapshot) : Except PortableSnapshotError Unit := do
  if snapshot.schemaVersion ≠ currentSchemaVersion ∧
      ¬(snapshot.snapshotKind = .sync ∧ snapshot.schemaVersion = fixedSchemaVersion) then
    throw (.unsupportedVersion snapshot.schemaVersion)
  if (← calculatePayloadHash snapshot.entities) ≠ snapshot.payloadHash then
    throw .payloadHashMismatch
  if let some expected := snapshot.entitiesHash then
    if (← calculateEntitiesHash snapshot.entities) ≠ expected then
      throw .entitiesHashMismatch

end RawPortableSnapshot

end NyaTerm

import NyaTerm.Lib.Fallible
import NyaTerm.Lib.Maps
import NyaTerm.Sync.Platform

open Std

namespace NyaTerm

inductive SyncError
  | invalidReplica
  | staleConflict
  | stalePlan
  | excluded
  deriving DecidableEq

-- A malformed key is an error of the replica.
def SyncFieldId.parseKey (key : String) : Except SyncError SyncFieldId :=
  match fromKey key with
  | some field => .ok field
  | none => .error .invalidReplica

theorem SyncFieldId.parseKey_eq_ok {k : String} {f : SyncFieldId} :
    parseKey k = .ok f ↔ f.Valid ∧ f.key = k := by
  rw [← fromKey_eq_some, parseKey]
  cases fromKey k <;> simp

theorem SyncFieldId.parseKey_eq_error {k : String} {e : SyncError} (h : parseKey k = .error e) :
    fromKey k = none := by
  rw [parseKey] at h
  cases hk : fromKey k <;> simp_all

variable [Platform]

structure ReplicaSnapshot where
  schema : Nat
  document : Platform.Saved
  values : BTreeMap String SyncValue

structure SyncCandidate where
  operation : String
  value : String
  deriving DecidableEq

structure SyncConflict where
  field : SyncFieldId
  candidates : List SyncCandidate
  deriving DecidableEq

-- The document with the actor that writes to it, and the values its registers refer to.
@[ext]
structure SyncReplica where
  document : Document
  actor : Uuid
  values : BTreeMap String SyncValue
  fixed : Bool

abbrev Registers := BTreeMap SyncResourceId (BTreeMap String (List SyncCandidate))

-- A field tombstone is a value distinct from JSON null.
def deleted : String := "deleted"

def reference (value : String) (identity : Uuid) : ScalarValue :=
  .str (String.ofList (value.toList ++ '/' :: identity.toText))

-- What a register's entry refers to: the digest of a value, or the tombstone.
def ScalarValue.referent : ScalarValue → Option String
  | .other => none
  | .str s => do
    let (value, identity) ← Text.splitOnce '/' s.toList
    let _ ← Uuid.parse identity
    if value = deleted.toList ∨ (value.length = 64 ∧ value.all Text.isHex) then
      some (String.ofList value)
    else
      none

def distinct (candidates : List SyncCandidate) : Nat :=
  (ExtTreeSet.ofList (candidates.map (·.value)) : BTreeSet String).size

namespace SyncReplica

def new (actor : Uuid) : SyncReplica where
  document := ∅
  actor := actor
  values := ∅
  fixed := false

def candidate (r : SyncReplica) (field : SyncFieldId) :
    ScalarValue × Causal.OpId Uuid → Except SyncError SyncCandidate
  | (value, operation) =>
    match value.referent with
    | none => .error .invalidReplica
    | some digest =>
      if digest ≠ deleted ∧ digest ∉ r.values ∧ (!r.fixed ∨ fixedCloudSyncField field) then
        .error .invalidReplica
      else
        .ok ⟨operationText operation, digest⟩

def candidates (r : SyncReplica) (field : SyncFieldId) : Except SyncError (List SyncCandidate) := do
  let candidates ← (r.document.getAll field.key).mapM (r.candidate field)
  return candidates.insertionSort (·.operation ≤ ·.operation)

def candidateValue (r : SyncReplica) (candidate : SyncCandidate) : Except SyncError SyncValue :=
  match r.values[candidate.value]? with
  | some value => .ok value
  | none => .error .invalidReplica

def fields (r : SyncReplica) : Except SyncError (List SyncFieldId) :=
  r.document.keys.mapM SyncFieldId.parseKey

def collect (entries : List (SyncFieldId × List SyncCandidate)) : Registers :=
  Index.build (·.1.resource) (fun fields (field, candidates) =>
    (fields.getD ∅).insert field.field candidates) entries

def registers (r : SyncReplica) : Except SyncError Registers := do
  let entries ← (← r.fields).mapM fun field => return (field, ← r.candidates field)
  return collect entries

-- A fixed replica ignores the registers outside the core.
def skips (r : SyncReplica) (field : SyncFieldId) : Bool :=
  r.fixed && !fixedCloudSyncField field

def validatePresence (r : SyncReplica) (resource : SyncResourceId)
    (fields : BTreeMap String (List SyncCandidate)) : Except SyncError Unit :=
  if r.skips (.presence resource) then
    .ok ()
  else
    match fields[SyncFieldId.present]? with
    | none | some [] => .error .invalidReplica
    | some candidates => candidates.forM fun candidate => do
      let value ← r.candidateValue candidate
      if value.decode.isBoolean then .ok () else .error .invalidReplica

def validate (r : SyncReplica) : Except SyncError Unit :=
  if r.values.toList.any fun (id, value) => digest value.bytes ≠ id then
    .error .invalidReplica
  else do
    let registers ← r.registers
    registers.toList.forM fun (resource, fields) => r.validatePresence resource fields

def load (snapshot : ReplicaSnapshot) (actor : Uuid) : Except SyncError SyncReplica :=
  if snapshot.schema ≠ 4 ∧ snapshot.schema ≠ 5 then
    .error .invalidReplica
  else
    match Platform.loadDocument snapshot.document with
    | none => .error .invalidReplica
    | some document => do
      let replica : SyncReplica :=
        { document, actor, values := snapshot.values, fixed := snapshot.schema == 5 }
      replica.validate
      return replica

def snapshot (r : SyncReplica) : ReplicaSnapshot where
  schema := if r.fixed then 5 else 4
  document := Platform.save r.document
  values := r.values

-- The entry a current candidate of a core field has in the published inventory.
def published (r : SyncReplica) (field : SyncFieldId) (candidate : SyncCandidate) :
    Except SyncError (Option (String × SyncValue)) :=
  if candidate.value = deleted then
    .ok none
  else do
    let value ← r.candidateValue candidate
    if validFixedCloudSyncValue field value.decode then
      .ok (some (candidate.value, value))
    else
      .error .invalidReplica

def publishedField (r : SyncReplica) (field : SyncFieldId) :
    Except SyncError (List (Option (String × SyncValue))) :=
  if !fixedCloudSyncField field then
    .ok []
  else do
    (← r.candidates field).mapM (r.published field)

-- Keeps causal identities and tombstones, but transmits only current core candidates.
def fixedSnapshot (r : SyncReplica) : Except SyncError ReplicaSnapshot := do
  let values ← (← r.fields).mapM r.publishedField
  let snapshot : ReplicaSnapshot :=
    { schema := 5
      document := Platform.save r.document
      values := ExtTreeMap.ofList (values.flatten.filterMap id) }
  let _ ← load snapshot .nil
  return snapshot

-- A value ID is a digest of its canonical bytes, never a last-writer map. The state that a call
-- leaves behind is returned with its result.
def merge (r : SyncReplica) (snapshot : ReplicaSnapshot) : Except SyncError Unit × SyncReplica :=
  match load snapshot .nil with
  | .error e => (.error e, r)
  | .ok remote =>
    if remote.values.toList.any fun (id, value) => r.values[id]?.any (· ≠ value) then
      (.error .invalidReplica, r)
    else
      match r.document.merge remote.document with
      | none => (.error .invalidReplica, r)
      | some document =>
        let merged : SyncReplica :=
          { r with document, values := r.values ∪ remote.values, fixed := r.fixed || remote.fixed }
        (merged.validate, merged)

-- `identity` is the fresh `Uuid::new_v4` of the write. A put of a string on the root of a document
-- does not fail.
def write (r : SyncReplica) (field : SyncFieldId) (value : SyncValue) (identity : Uuid) :
    SyncReplica :=
  { r with
    document := r.document.put r.actor field.key (reference (digest value.bytes) identity)
    values := r.values.insert (digest value.bytes) value }

def deleteField (r : SyncReplica) (field : SyncFieldId) (identity : Uuid) : SyncReplica :=
  { r with document := r.document.put r.actor field.key (reference deleted identity) }

def boolean (r : SyncReplica) (candidates : List SyncCandidate) :
    Except SyncError (Option Bool) :=
  match candidates.head? with
  | none => .ok none
  | some candidate => do
    let value ← r.candidateValue candidate
    match value.decode.asBool with
    | some b => .ok (some b)
    | none => .error .invalidReplica

-- Presence is disputed or the resource is deleted.
def hidden (r : SyncReplica) (presence : List SyncCandidate) : Except SyncError Bool :=
  if distinct presence > 1 then
    .ok true
  else do
    return (← r.boolean presence) = some false

def resourceConflicts (r : SyncReplica) (resource : SyncResourceId)
    (fields : BTreeMap String (List SyncCandidate)) : Except SyncError (List SyncConflict) :=
  if r.skips (.presence resource) then
    .ok []
  else
    match fields[SyncFieldId.present]? with
    | none => .error .invalidReplica
    | some presence => do
      let hidden ← r.hidden presence
      return fields.toList.filterMap fun (name, candidates) =>
        if r.skips ⟨resource, name⟩ || (name != SyncFieldId.present && hidden) then none
        else if distinct candidates > 1 then some ⟨⟨resource, name⟩, candidates⟩
        else none

def conflictsFrom (r : SyncReplica) (registers : Registers) :
    Except SyncError (List SyncConflict) := do
  let conflicts ← registers.toList.mapM fun (resource, fields) => r.resourceConflicts resource fields
  return conflicts.flatten.insertionSort fun a b => (compare a.field b.field).isLE

def conflicts (r : SyncReplica) : Except SyncError (List SyncConflict) := do
  r.conflictsFrom (← r.registers)

-- A register that `capture` writes: a value, or a tombstone.
structure Write where
  field : SyncFieldId
  value : Option SyncValue

def perform (r : SyncReplica) (w : Write) (identity : Uuid) : SyncReplica :=
  match w.value with
  | some value => r.write w.field value identity
  | none => r.deleteField w.field identity

-- The n-th write takes the n-th identity that is drawn.
def performAll (identities : Nat → Uuid) : List Write → SyncReplica → SyncReplica
  | [], r => r
  | w :: ws, r => performAll (fun n => identities (n + 1)) ws (r.perform w (identities 0))

-- The fields of the keys before the first malformed one, and whether there is one.
def parseKeys : List String → List SyncFieldId × Bool
  | [] => ([], false)
  | key :: keys =>
    match SyncFieldId.fromKey key with
    | none => ([], true)
    | some field => (field :: (parseKeys keys).1, (parseKeys keys).2)

section Capture

variable (r : SyncReplica) (baseline : SyncValues) (current : SyncProjection) (scope : SyncScope)

-- Incomplete observations cannot prove deletion.
def removes (field : SyncFieldId) : Bool :=
  field.field == SyncFieldId.present
    && scope.includes field.resource.kind
    && !r.skips field
    && current.complete.contains field.resource.kind
    && baseline.contains field.key
    && !current.values.contains field.key

def changes (removed : List SyncResourceId) (field : SyncFieldId) : Bool :=
  scope.includes field.resource.kind
    && !r.skips field
    && supportsField field.resource.kind field.field
    && (current.complete.contains field.resource.kind || current.values.contains field.key)
    && !removed.contains field.resource
    && (baseline[field.key]? != current.values[field.key]? || current.edited.contains field)

def removedFields (fields : List SyncFieldId) : List SyncFieldId :=
  fields.filter (r.removes baseline current scope)

def changedFields (fields : List SyncFieldId) : List SyncFieldId :=
  let removed := (r.removedFields baseline current scope fields).map (·.resource)
  fields.filter (r.changes baseline current scope removed)

def changedResources (fields : List SyncFieldId) : List SyncResourceId :=
  let changed := (r.changedFields baseline current scope fields).map (·.resource)
  (ExtTreeSet.ofList changed : BTreeSet SyncResourceId).toList

-- The writes of the three loops of `capture`. The loops read nothing that they write.
def deletionWrites (fields : List SyncFieldId) : List Write :=
  (r.removedFields baseline current scope fields).map fun field => ⟨field, some (.bool false)⟩

def editWrites (fields : List SyncFieldId) : List Write :=
  (r.changedFields baseline current scope fields).map fun field =>
    ⟨field, current.values[field.key]?⟩

def presenceWrites (fields : List SyncFieldId) : List Write :=
  (r.changedResources baseline current scope fields).map fun resource =>
    ⟨.presence resource, some (.bool true)⟩

-- Captures against effective business data, never against the document's selected winner.
def capture (identities : Nat → Uuid) : Except SyncError Bool × SyncReplica :=
  if current.edited.isEmpty && baseline = current.values then
    (.ok false, r)
  else
    let keys := (ExtTreeSet.ofList (baseline.keys ++ current.values.keys) : BTreeSet String).toList
    let (fields, malformed) := parseKeys keys
    let deletions := r.deletionWrites baseline current scope fields
    if malformed then
      (.error .invalidReplica, r.performAll identities deletions)
    else
      let changed := !(r.changedResources baseline current scope fields).isEmpty
      let removed := !(r.removedFields baseline current scope fields).isEmpty
      let edits := r.editWrites baseline current scope fields
      let presences := r.presenceWrites baseline current scope fields
      (.ok (changed || removed), r.performAll identities (deletions ++ edits ++ presences))

end Capture

-- What materializing does with a resource of the document: leave the local fields, remove them
-- all, or update some of them.
inductive Outcome
  | keep
  | delete
  | update (fields : List (String × Option SyncValue))

def materializeField (r : SyncReplica) (resource : SyncResourceId) :
    String × List SyncCandidate → Except SyncError (Option (String × Option SyncValue))
  | (name, candidates) =>
    let field : SyncFieldId := ⟨resource, name⟩
    if !supportsField resource.kind name || distinct candidates ≠ 1 then
      .ok none
    else
      match candidates with
      | [] => .ok none
      | candidate :: _ =>
        if candidate.value = deleted then
          .ok (some (field.key, none))
        else do
          return some (field.key, some (← r.candidateValue candidate))

def materializeResource (r : SyncReplica) (localValues : SyncValues) (scope : SyncScope)
    (blockedNew : List SyncResourceId) (resource : SyncResourceId)
    (fields : BTreeMap String (List SyncCandidate)) : Except SyncError Outcome :=
  if !scope.includes resource.kind || r.skips (.presence resource) then
    .ok .keep
  else
    match fields[SyncFieldId.present]? with
    | none => .error .invalidReplica
    | some candidates =>
      if distinct candidates > 1 then
        .ok .keep
      else do
        if (← r.boolean candidates) = some false then
          .ok .delete
        else if (SyncFieldId.presence resource).key ∉ localValues ∧ resource ∈ blockedNew then
          .ok .keep
        else
          let updates ← fields.toList.mapM (r.materializeField resource)
          return .update (updates.filterMap id)

def Outcome.updates : Outcome → List (String × Option SyncValue)
  | update fields => fields
  | _ => []

def deletions (outcomes : List (SyncResourceId × Outcome)) : List SyncResourceId :=
  outcomes.filterMap fun (resource, outcome) =>
    match outcome with
    | .delete => some resource
    | _ => none

def retains (deletions : List SyncResourceId) (key : String) : Bool :=
  !(SyncFieldId.fromKey key).any (deletions.contains ·.resource)

def materializeFrom (r : SyncReplica) (localValues : SyncValues) (scope : SyncScope)
    (registers : Registers) : Except SyncError SyncValues := do
  let conflicts ← r.conflictsFrom registers
  let blockedNew := conflicts
    |>.filter (fun conflict => supportsField conflict.field.resource.kind conflict.field.field)
    |>.map (·.field.resource)
  let outcomes ← registers.toList.mapM fun (resource, fields) => do
    return (resource, ← r.materializeResource localValues scope blockedNew resource fields)
  let result := Patch.apply localValues (outcomes.flatMap (·.2.updates))
  return result.filter fun key _ => retains (deletions outcomes) key

def materialize (r : SyncReplica) (localValues : SyncValues) (scope : SyncScope) :
    Except SyncError SyncValues := do
  r.materializeFrom localValues scope (← r.registers)

def resolve (r : SyncReplica) (conflict : SyncConflict) (candidate : SyncCandidate)
    (scope : SyncScope) (identity : Uuid) : Except SyncError Unit × SyncReplica :=
  if !scope.includes conflict.field.resource.kind
      || r.skips conflict.field
      || !supportsField conflict.field.resource.kind conflict.field.field then
    (.error .excluded, r)
  else
    match r.candidates conflict.field with
    | .error e => (.error e, r)
    | .ok candidates =>
      if candidates ≠ conflict.candidates ∨ candidate ∉ conflict.candidates then
        (.error .staleConflict, r)
      else if candidate.value = deleted then
        (.ok (), r.deleteField conflict.field identity)
      else
        match r.candidateValue candidate with
        | .error e => (.error e, r)
        | .ok value => (.ok (), r.write conflict.field value identity)

-- Migration-only preservation of opaque data.
def preserve (r : SyncReplica) (projection : SyncProjection) (identities : Nat → Uuid) :
    Except SyncError Unit × SyncReplica :=
  let (fields, malformed) := parseKeys projection.values.keys
  let writes := fields.filterMap fun field =>
    projection.values[field.key]?.map fun value => ⟨field, some value⟩
  (if malformed then .error .invalidReplica else .ok (), r.performAll identities writes)

end SyncReplica
end NyaTerm

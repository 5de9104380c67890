import NyaTerm.Sync.Replica

open Std

namespace NyaTerm

variable [Platform]

-- The resources of the default AI settings that `values` does not deviate from.
def defaultResources (values : SyncValues) : List SyncResourceId :=
  let resources := Platform.defaultAiValues.keys.filterMap fun key =>
    (SyncFieldId.fromKey key).map (·.resource)
  let deviating := values.toList.filterMap fun (key, value) =>
    if Platform.defaultAiValues[key]? = some value then none
    else (SyncFieldId.fromKey key).map (·.resource)
  resources.filter (!deviating.contains ·)

-- The identities a call draws: of the writes on the replica, of the actor of the seed and of the
-- writes on the seed.
structure Entropy where
  writes : Nat → Uuid
  seed : Uuid
  seedWrites : Nat → Uuid

structure SyncPlan where
  expectedLocal : SyncProjection
  scope : SyncScope
  replica : ReplicaSnapshot
  effective : SyncValues
  conflicts : List SyncConflict

-- The replica a call leaves behind, where a failed call ends the caller.
def SyncReplica.succeed {α : Type} (call : Except SyncError α × SyncReplica) :
    Except SyncError SyncReplica :=
  call.1.map fun _ => call.2

def SyncReplica.mergeAll (r : SyncReplica) (snapshots : List ReplicaSnapshot) :
    Except SyncError SyncReplica :=
  snapshots.foldlM (fun r snapshot => succeed (r.merge snapshot)) r

namespace Prepare

-- The resources of `current` that this device has not confirmed.
def unbased (baseline : SyncValues) (current : SyncProjection) : List SyncResourceId :=
  current.values.keys.filterMap fun key => do
    let field ← SyncFieldId.fromKey key
    if field.field == SyncFieldId.present && !baseline.contains field.key then
      some field.resource
    else
      none

def openReplica (actor : Uuid) : Option ReplicaSnapshot → Except SyncError SyncReplica
  | some snapshot => SyncReplica.load snapshot actor
  | none => .ok (.new actor)

-- The resources of the remotes, which only a first join looks at.
def remoteResources (first : Bool) (remotes : List ReplicaSnapshot) :
    Except SyncError (List SyncResourceId) :=
  if first then do
    let fields ← remotes.mapM fun remote => do (← SyncReplica.load remote .nil).fields
    return fields.flatten.filterMap fun field =>
      if field.field == SyncFieldId.present then some field.resource else none
  else
    .ok []

-- On a first join a resource that still has its default gives way to a remote one.
def defaultOnJoin (first : Bool) (scope : SyncScope) (current : SyncProjection)
    (remote : List SyncResourceId) (resource : SyncResourceId) : Bool :=
  first
    && ((scope.ai && (defaultResources current.values).contains resource)
      || current.values[SyncFieldId.key ⟨resource, "value"⟩]?.any (isDefaultPreference resource))
    && remote.contains resource

def ordinary (baseline : SyncValues) (current : SyncProjection) : SyncProjection :=
  { current with
    values := current.values.filter fun key _ =>
      !(SyncFieldId.fromKey key).any ((unbased baseline current).contains ·.resource) }

def independent (baseline : SyncValues) (current : SyncProjection)
    (gives : SyncResourceId → Bool) : SyncProjection where
  values := current.values.filter fun key _ =>
    (SyncFieldId.fromKey key).any fun field =>
      (unbased baseline current).contains field.resource && !gives field.resource
  complete := current.complete

open SyncReplica in
-- Seeds a replica with unconfirmed resources on an independent branch.
def mergeSeed (r : SyncReplica) (seeded : SyncProjection) (scope : SyncScope) (entropy : Entropy) :
    Except SyncError SyncReplica :=
  if seeded.values.isEmpty then
    .ok r
  else do
    let seed ← succeed ((new entropy.seed).capture ∅ seeded scope entropy.seedWrites)
    succeed (r.merge seed.snapshot)

end Prepare

open Prepare SyncReplica in
def prepare (actor : Uuid) (localSnapshot : Option ReplicaSnapshot) (baseline : SyncValues)
    (current : SyncProjection) (remotes : List ReplicaSnapshot) (scope : SyncScope)
    (entropy : Entropy) : Except SyncError SyncPlan := do
  let first := localSnapshot.isNone
  let replica ← openReplica actor localSnapshot
  let gives := defaultOnJoin first scope current (← remoteResources first remotes)
  let replica ← succeed (replica.capture baseline (ordinary baseline current) scope entropy.writes)
  let replica ← mergeSeed replica (independent baseline current gives) scope entropy
  -- Local writes must branch before observing remote history.
  let replica ← replica.mergeAll remotes
  let registers ← replica.registers
  let effective ← replica.materializeFrom current.values scope registers
  let conflicts ← replica.conflictsFrom registers
  return { expectedLocal := current, scope, replica := replica.snapshot, effective, conflicts }

end NyaTerm

import NyaTerm.Sync.Prepare

open Std

namespace NyaTerm

variable [Platform]

-- The replicas that the devices of a network have had so far, each of them as it was when it was
-- made. A snapshot that is delivered late is a snapshot of an old member.
abbrev World := List SyncReplica

namespace World

-- The snapshots that the devices can have sent.
inductive Sent (w : World) : ReplicaSnapshot → Prop
  | snapshot {q} (hq : q ∈ w) : Sent w q.snapshot
  | fixed {q s} (hq : q ∈ w) (hs : q.fixedSnapshot = .ok s) : Sent w s

-- An actor writes on top of everything it has written before: its operations are one chain.
def Leads (w : World) (r : SyncReplica) : Prop :=
  ∀ q ∈ w, ∀ i p, q.document.op? i = some p → i.actor = r.actor → r.document.op? i = some p

-- What can happen next, with values of `S` only. A call that fails leaves a replica behind, too.
inductive Step (S : Set SyncValue) (w : World) : SyncReplica → Prop
  | new (a : Uuid) : Step S w (.new a)
  | load {s a r} (hs : Sent w s) (hl : SyncReplica.load s a = .ok r) : Step S w r
  | capture {r} (hr : r ∈ w) (ha : Leads w r) (baseline) {current : SyncProjection}
    (hc : ∀ (k : String) v, current.values[k]? = some v → v ∈ S) (scope identities) :
    Step S w (r.capture baseline current scope identities).2
  | resolve {r} (hr : r ∈ w) (ha : Leads w r) (conflict candidate scope identity) :
    Step S w (r.resolve conflict candidate scope identity).2
  | merge {r s} (hr : r ∈ w) (hs : Sent w s) : Step S w (r.merge s).2

inductive Reachable (S : Set SyncValue) : World → Prop
  | empty : Reachable S []
  | step {w r} (hw : Reachable S w) (h : Step S w r) : Reachable S (r :: w)

end World

-- Snapshots that are merged before they are delivered: a device loads one and merges the other.
inductive Bundle
  | single (snapshot : ReplicaSnapshot)
  | group (actor : Uuid) (first second : Bundle)

namespace Bundle

def snapshots : Bundle → List ReplicaSnapshot
  | single s => [s]
  | group _ b c => b.snapshots ++ c.snapshots

open SyncReplica in
def pack : Bundle → Except SyncError ReplicaSnapshot
  | single s => .ok s
  | group a b c => do
    let replica ← load (← b.pack) a
    let merged ← succeed (replica.merge (← c.pack))
    return merged.snapshot

end Bundle

-- Merges everything that is delivered, one bundle after the other.
def SyncReplica.deliver (r : SyncReplica) (bundles : List Bundle) :
    Except SyncError SyncReplica := do
  r.mergeAll (← bundles.mapM Bundle.pack)

end NyaTerm

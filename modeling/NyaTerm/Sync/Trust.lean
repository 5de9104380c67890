import NyaTerm.Sync.Platform

open Std

namespace NyaTerm

variable [Platform]

structure TrustReview where
  resource : SyncResourceId
  key : String
  token : String
  previous : Json
  proposed : Json
  deriving DecidableEq

namespace TrustReview

-- The text whose digest is the token.
def encoding (resource : SyncResourceId) (previous proposed : Json) : Json :=
  .array [.object [("kind", .string resource.kind), ("id", .string resource.id)], previous, proposed]

def new (resource : SyncResourceId) (previous proposed : Json) : TrustReview where
  resource := resource
  key := (SyncFieldId.presence resource).key
  token := digest (encoding resource previous proposed).toText.toUTF8.data.toList
  previous := previous
  proposed := proposed

end TrustReview

-- The identity of a host that a value holds.
def hostIdentity (key : String) (value : SyncValue) : Option (SyncResourceId × Json) := do
  let field ← SyncFieldId.fromKey key
  if trustKinds.contains field.resource.kind && field.field == "identity" then
    some (field.resource, .object [("identity", value.decode)])
  else
    none

def resourceValues (values : SyncValues) : BTreeMap SyncResourceId Json :=
  ExtTreeMap.ofList (values.toList.filterMap fun entry => hostIdentity entry.1 entry.2)

def reviews (current desired : SyncValues) : List TrustReview :=
  let current := resourceValues current
  let desired := resourceValues desired
  let resources : BTreeSet SyncResourceId := ExtTreeSet.ofList (current.keys ++ desired.keys)
  resources.toList.filterMap fun resource =>
    let previous := current[resource]?.getD .null
    let proposed := desired[resource]?.getD .null
    if previous.same proposed then none else some (.new resource previous proposed)

def approved (current desired : SyncValues) (approvals : BTreeMap String String) : Bool :=
  (reviews current desired).all fun review => approvals[review.key]? = some review.token

-- The decisions of a user who has been shown these reviews and agrees to all of them.
def approvalsOf (reviews : List TrustReview) : BTreeMap String String :=
  ExtTreeMap.ofList (reviews.map fun review => (review.key, review.token))

end NyaTerm

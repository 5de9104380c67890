import NyaTerm.Cloud.Store
import NyaTerm.Cloud.Theorems.Operations

open Program System

namespace NyaTerm

section

variable [SnapshotFormat]

namespace LocalStore

variable {store : LocalStore}

theorem Builds.snapshotKind (h : store.Builds device snapshot) : snapshot.snapshotKind = .sync := by
  have ⟨appVersion, revision, now, h⟩ := h
  exact (RawPortableSnapshot.projectFixed_eq_ok h).1

theorem Serves.entities {x : Except CloudSyncError (Answer c)} (h : store.Serves device c x store')
    (hn : store'.entities ≠ store.entities) :
    ∃ snapshot expected next, c = .applyChecked snapshot expected next := by
  cases h
  case apply | applyUnsaved | applyUnseen => exact ⟨_, _, _, rfl⟩
  all_goals exact absurd rfl hn

theorem Serves.hasContent {x : Except CloudSyncError CloudSyncState}
    (h : store.Serves device (.applyChecked snapshot expected next) x store')
    (he : (∃ saved, x = .ok saved) ∨ store' ≠ store) : store.HasContent device expected := by
  cases h
  case apply hc _ => exact hc
  case applyUnsaved hc => exact hc
  case applyUnseen hc _ => exact hc
  case failed =>
    rcases he with ⟨_, ⟨⟩⟩ | he
    exact absurd rfl he

-- Everything that the user has done is in the last synchronized content, or there is nothing of
-- the user at all.
def IsSynced (store : LocalStore) (device : String) (state : CloudSyncState) : Prop :=
  ∃ current content, store.Builds device current ∧ current.syncContentHash = .ok content ∧
    (state.lastSyncedContentHash = some content ∨ current.hasUserContent = false)

end LocalStore

namespace CloudSync

variable {t : CloudTrace} {options : LocalCloudSyncOptions}

-- No snapshot was applied, and none was tried.
def Unapplied (t : CloudTrace) : Prop :=
  ∀ snapshot expected next x,
    (⟨.applyChecked snapshot expected next, x⟩ : Event CloudSyncError Answer) ∉ t

theorem runs_pullPrepared (h : Runs (pullPrepared options state force given) t (.ok result)) :
    (result.outcome = .upToDate ∧ Unapplied t) ∨
      ∃ snapshot expected next saved, Got t (.applyChecked snapshot expected next) saved := by
  obtain ⟨view, t₁, t₂, rfl, h₁, h₂⟩ := runs_bind_ok.mp h
  have ⟨decision, _, h₄⟩ := runs_done_bind_ok.mp h₂
  cases decision
  case remember next =>
    obtain ⟨_, t₄, rfl, h₅⟩ := runs_perform_bind_ok.mp h₄
    obtain ⟨rfl, rfl⟩ := runs_pure_ok.mp h₅
    refine .inl ⟨rfl, fun snapshot expected next x hx => ?_⟩
    rcases List.mem_append.mp hx with hx | hx
    · cases (staging_pullView options state force given).runs h₁ _ hx
    · simp at hx
  case proceed =>
    obtain ⟨_, t₄, rfl, h₅⟩ := runs_perform_bind_ok.mp h₄
    obtain ⟨⟨snapshot, pointer⟩, t₅, t₆, rfl, _, h₆⟩ := runs_bind_ok.mp h₅
    obtain ⟨saved, t₇, rfl, _⟩ := runs_perform_bind_ok.mp h₆
    exact .inr ⟨snapshot, view.localContent, _, saved, by simp [Got]⟩

theorem keeps_pullSystem : Keeps (S := pullSystem options state force) (fun _ => True)
    (fun _ => True) fun _ _ session => ∀ built, Got session.trace .buildSnapshot built →
      built.snapshotKind = .sync where
  init _ := trivial
  start _ _ := nofun
  call := by
    intro store _ _ t c x store' _ ht _ ha
    refine ⟨trivial, fun built hb => ?_⟩
    rcases got_append.mp hb with hb | hb
    · exact ht built hb
    · cases List.mem_singleton.mp hb
      cases ha
      case store h =>
        cases h
        case build h => exact h.snapshotKind
      case elsewhere h => cases h
  other := fun _ _ _ _ _ h => h
  move := fun _ _ => ⟨trivial, fun _ _ h => h⟩

-- Unless the user insists, a pull never replaces what the user has done since the last
-- synchronization, whatever they do in the meantime. It applies only snapshots that continue the
-- baseline, and it ends in an error if it has not applied one although there was something to do.
theorem pull_spares_local_work {s : (pullSystem options state false).Config}
    (hr : Reachable (fun _ => True) s) (ht : s.sessions () = some ⟨(), t⟩) :
    (∀ snapshot expected next x store', Asks (pull options state false) t
        (.applyChecked snapshot expected next) →
      Alone options.deviceId s.world (.applyChecked snapshot expected next) x store' →
      ((∃ saved, x = .ok saved) ∨ store' ≠ s.world) →
      (∀ baseline ∈ state.lastSyncedClock, ∃ clock ∈ snapshot.syncClock,
        clock.strictlyDominates baseline) ∧ s.world.IsSynced options.deviceId state) ∧
    (∀ c x store', Asks (pull options state false) t c →
      Alone options.deviceId s.world c x store' → store'.entities ≠ s.world.entities →
      ∃ snapshot expected next, c = .applyChecked snapshot expected next) ∧
    ∀ r, Runs (pull options state false) t r → (∃ error, r = .error error) ∨
      (∃ result, r = .ok result ∧ result.outcome = .upToDate ∧ Unapplied t) ∨
      ∃ snapshot expected next saved, Got t (.applyChecked snapshot expected next) saved := by
  refine ⟨?_, ?_, ?_⟩
  · intro snapshot expected next x store' hc ha he
    cases ha
    case elsewhere h => cases h
    case store h =>
      have hp := obeys_pull false _ _ hc
      cases hp
      case staging h => cases h
      case apply hp =>
        refine ⟨hp.continues rfl, ?_⟩
        have ⟨built, hb, hh, hu⟩ := hp.unchanged rfl
        have ⟨current, hk, hn⟩ := h.hasContent he
        have hs := (keeps_pullSystem.reachable hr).2 () _ ht built hb
        refine ⟨current, expected, hk, hn, hu.imp_right fun hu => ?_⟩
        rw [← hu]
        exact RawPortableSnapshot.hasUserContent_congr hk.snapshotKind hs hn hh
  · intro c x store' _ ha he
    cases ha
    case elsewhere => exact absurd rfl he
    case store h => exact h.entities he
  · intro r h
    cases r
    case error error => exact .inl ⟨error, rfl⟩
    case ok result =>
      rcases runs_pullPrepared (runs_withDetails_ok h) with h | h
      · exact .inr (.inl ⟨result, rfl, h⟩)
      · exact .inr (.inr h)

end CloudSync

end

-- A device that synchronized its documents, and another one that has published since.
namespace SnapshotFormat.Sample

open CloudSync

local instance : SnapshotFormat := sample

def options : LocalCloudSyncOptions := ⟨true, "b", none⟩

def baseline : CloudSyncState :=
  ⟨some (sampleHash 2), some ("entities-v1:" ++ sampleHash 2), some ⟨.ofList [("a", 8)], none⟩,
    some "old"⟩

def built (entities : Nat) : RawPortableSnapshot :=
  { RawPortableSnapshot.sync "local" "b" "" 0 entities with
    schemaVersion := RawPortableSnapshot.fixedSchemaVersion
    payloadHash := sampleHash entities
    entitiesHash := some (sampleHash entities) }

theorem builds (entities : Nat) (state : CloudSyncState) :
    LocalStore.Builds ⟨entities, state⟩ "b" (built entities) :=
  ⟨"", "local", 0, rfl⟩

def pulling (entities : Nat) : CloudTrace :=
  [⟨.checkpoint, .ok ()⟩, ⟨.createDir .sync, .ok ()⟩, ⟨.createDir .snapshots, .ok ()⟩,
    ⟨.createDir .heads, .ok ()⟩, ⟨.buildSnapshot, .ok (built entities)⟩] ++
  heads ++ ⟨.readIfExists .latest, .ok none⟩ :: inspected (snapshot "new" 9 9)

theorem evolves_pulling (entities : Nat) : Evolves (S := pullSystem options baseline false) ()
    ⟨entities, baseline⟩ (pulling entities) ⟨entities, baseline⟩ := by
  repeat first
    | exact .nil
    | refine .cons (.elsewhere rfl) ?_
    | refine .cons (.store (.build (builds entities baseline))) ?_

-- What the device remembers once it holds what the other one has published.
def remembered : CloudSyncState :=
  .synced (sampleHash 1) ("entities-v1:" ++ sampleHash 1) (.ofSnapshot (snapshot "new" 9 9))

-- The configuration after a run that nobody has disturbed.
def after (entities : Nat) (state : CloudSyncState) (t : CloudTrace) :
    (pullSystem options baseline false).Config :=
  ⟨(⟨entities, state⟩ : LocalStore), Function.update (fun _ => none) () (some ⟨(), t⟩)⟩

def applying : CloudTrace :=
  pulling 2 ++ [⟨.beforeApply, .ok ()⟩]

def applied : CloudRequest :=
  .applyChecked (snapshot "new" 9 9) ("entities-v1:" ++ sampleHash 2) { baseline with
    lastSyncedClock := some ⟨.ofList [("a", 9)], none⟩
    lastAppliedRemoteRevision := some "new" }

theorem asks_applying : Asks (pull options baseline false) applying applied := by
  repeat first | exact .here | refine .there ?_

theorem alone_applied :
    Alone "b" ⟨(2 : Nat), baseline⟩ applied (.ok remembered) ⟨(1 : Nat), remembered⟩ :=
  .store (.apply ⟨built 2, builds 2 baseline, rfl⟩
    ⟨built 1, built 1, _, builds 1 remembered, rfl, rfl, rfl⟩)

theorem reachable_applying : Reachable (fun _ => True) (after 2 baseline applying) :=
  .steps (.init trivial) (steps_asks rfl trivial
    ((evolves_pulling 2).append (.cons (.elsewhere rfl) .nil)) asks_applying)

theorem pull_spares_local_work_sample :
    (∀ clock ∈ baseline.lastSyncedClock, ∃ newer ∈ (snapshot "new" 9 9).syncClock,
      newer.strictlyDominates clock) ∧
    LocalStore.IsSynced ⟨(2 : Nat), baseline⟩ "b" baseline :=
  (pull_spares_local_work reachable_applying rfl).1 _ _ _ _ _ asks_applying alone_applied
    (.inl ⟨_, rfl⟩)

-- A device that happens to hold the new content already only remembers that it does.
def remembering : CloudTrace :=
  pulling 1 ++ [⟨.persistState remembered, .ok ()⟩]

theorem runs_remembering : Runs (pull options baseline false) remembering
    (.ok ⟨remembered, some (.ofSnapshot (snapshot "new" 9 9)), .upToDate⟩) := by
  repeat first | exact .done | refine .call ?_

theorem pull_ends_well_unapplied :
    Reachable (fun _ => True) (after 1 remembered remembering) ∧
    (∃ result, Runs (pull options baseline false) remembering (.ok result)) ∧
    Unapplied remembering := by
  refine ⟨?_, ⟨_, runs_remembering⟩, ?_⟩
  · exact .steps (.init trivial) (steps_runs rfl trivial
      ((evolves_pulling 1).append (.cons (.store .persist) .nil)) runs_remembering)
  · intro snapshot expected next x hx
    simp [remembering, pulling, heads, inspected] at hx

end SnapshotFormat.Sample

end NyaTerm

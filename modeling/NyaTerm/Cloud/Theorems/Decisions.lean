import NyaTerm.Cloud.Operations
import NyaTerm.Cloud.Theorems.Clock

namespace NyaTerm

open Fallible

namespace CloudSyncState

variable {state : CloudSyncState} {heads : RemoteHeads}

theorem requireSingle_eq_ok (h : heads.requireSingle localHash = .ok ()) :
    heads.concurrent = false := by
  rw [RemoteHeads.requireSingle] at h
  split at h
  case isTrue => split at h <;> cases h
  case isFalse hc => simpa using hc

theorem validateRemoteBaseline_eq_ok (h : state.validateRemoteBaseline pointer localHash = .ok ()) :
    state.remotePrecedesBaseline pointer = false ∧
      state.remoteConcurrentWithBaseline pointer = false := by
  rw [validateRemoteBaseline] at h
  split at h
  case isTrue => cases h
  case isFalse hp =>
    split at h
    case isTrue => cases h
    case isFalse hc => exact ⟨by simpa using hp, by simpa using hc⟩

theorem requireSuccessor_eq_ok (h : state.requireSuccessor heads localHash = .ok ()) :
    heads.concurrent = false ∧ ∀ head ∈ heads.selected,
      state.remotePrecedesBaseline head = false ∧ state.remoteConcurrentWithBaseline head = false := by
  have ⟨_, hs, h⟩ := bind_eq_ok.mp h
  refine ⟨requireSingle_eq_ok hs, fun head hh => ?_⟩
  rw [Option.mem_def.mp hh] at h
  exact validateRemoteBaseline_eq_ok h

theorem dominates_baseline (hp : state.remotePrecedesBaseline pointer = false)
    (hc : state.remoteConcurrentWithBaseline pointer = false)
    (hn : state.lastAppliedRemoteRevision ≠ some pointer.revisionId) :
    ∀ baseline ∈ state.lastSyncedClock, ∃ clock ∈ pointer.syncClock,
      clock.strictlyDominates baseline := by
  intro baseline hb
  rw [remoteConcurrentWithBaseline, if_neg hn, Option.mem_def.mp hb] at hc
  cases hk : pointer.syncClock
  case none => simp [hk, hp] at hc
  case some clock =>
    simp only [remotePrecedesBaseline, Option.mem_def.mp hb, hk] at hp
    simpa [hk, hp] using hc

theorem decideCheck_eq_upToDate
    (h : state.decideCheck localHash localHasContent remoteHash remoteHasContent
      pointer allowAutoPull = .upToDate) :
    localHash = remoteHash ∨ state.lastAppliedRemoteRevision = some pointer.revisionId := by
  by_cases hr : state.lastAppliedRemoteRevision = some pointer.revisionId
  · exact .inr hr
  · refine .inl ?_
    by_contra hn
    have hc : state.remoteChanged pointer = true := by simpa [remoteChanged] using hr
    simp only [decideCheck, hn, if_false, hc] at h
    split at h
    · split at h <;> cases h
    split at h
    · cases h
    · revert h
      cases state.localContentChanged localHash <;> cases allowAutoPull <;> simp [decideChanges]

end CloudSyncState

variable [SnapshotFormat]

namespace RawPortableSnapshot

variable {source result : RawPortableSnapshot}

section Recalculated

variable (h : source.recalculateHash = .ok result)
include h

theorem recalculateHash_eq_ok :
    ∃ payloadHash entitiesHash, result = { source with
      payloadHash := payloadHash
      entitiesHash := some entitiesHash
      migratedPayloadHash := none } := by
  simp only [recalculateHash, bind_eq_ok, pure_eq_ok] at h
  obtain ⟨payloadHash, _, entitiesHash, _, rfl⟩ := h
  exact ⟨payloadHash, entitiesHash, rfl⟩

theorem recalculateHash_meta :
    result.revisionId = source.revisionId ∧ result.deviceId = source.deviceId ∧
      result.syncClock = source.syncClock := by
  obtain ⟨_, _, rfl⟩ := recalculateHash_eq_ok h
  exact ⟨rfl, rfl, rfl⟩

theorem syncContentHash_recalculateHash :
    result.syncContentHash = source.syncContentHash := by
  obtain ⟨_, _, rfl⟩ := recalculateHash_eq_ok h
  rfl

theorem hasUserContent_recalculateHash :
    result.hasUserContent = source.hasUserContent := by
  obtain ⟨_, _, rfl⟩ := recalculateHash_eq_ok h
  rfl

theorem projectFixed_recalculateHash :
    result.projectFixed = source.projectFixed := by
  obtain ⟨_, _, rfl⟩ := recalculateHash_eq_ok h
  rfl

end Recalculated

theorem projectFixed_eq_ok (h : source.projectFixed = .ok result) :
    result.snapshotKind = .sync ∧ result.revisionId = source.revisionId ∧
      result.deviceId = source.deviceId := by
  simp only [projectFixed, bind_eq_ok] at h
  have ⟨_, _, h⟩ := h
  obtain ⟨_, _, rfl⟩ := recalculateHash_eq_ok h
  exact ⟨rfl, rfl, rfl⟩

theorem projectFixed_entities (h : source.projectFixed = .ok result) :
    SnapshotFormat.projectEntities source.schemaVersion source.entities = .ok result.entities := by
  simp only [projectFixed, bind_eq_ok] at h
  have ⟨_, he, h⟩ := h
  obtain ⟨_, _, rfl⟩ := recalculateHash_eq_ok h
  exact he

theorem syncContentHash_eq_ok (hk : source.snapshotKind = .sync)
    (h : source.syncContentHash = .ok content) : ∃ projected hash, source.projectFixed = .ok projected ∧
      SnapshotFormat.calculateEntitiesHash projected.entities = .ok hash ∧
      content = "entities-v1:" ++ hash := by
  simp only [syncContentHash, hk, bind_eq_ok, pure_eq_ok] at h
  obtain ⟨projected, hp, hash, hh, rfl⟩ := h
  exact ⟨projected, hash, hp, hh, rfl⟩

-- Snapshots with the same content both hold something of the user, or none of them does.
theorem hasUserContent_congr (hs : source.snapshotKind = .sync)
    (hr : result.snapshotKind = .sync) (h : source.syncContentHash = .ok content)
    (h' : result.syncContentHash = .ok content) : source.hasUserContent = result.hasUserContent := by
  obtain ⟨_, hash, hp, hh, rfl⟩ := syncContentHash_eq_ok hs h
  have ⟨_, hash', hp', hh', he⟩ := syncContentHash_eq_ok hr h'
  obtain rfl := (String.append_right_inj _).mp he
  simp only [hasUserContent, hs, hr]
  exact SnapshotFormat.holdsSyncFields_of_hash (projectFixed_entities hp)
    (projectFixed_entities hp') hh hh'

-- The content of a local snapshot, as an operation sees it: some of them project it once more.
def Shows (built : RawPortableSnapshot) (hash : String) : Prop :=
  built.syncContentHash = .ok hash ∨
    ∃ projected, built.projectFixed = .ok projected ∧ projected.syncContentHash = .ok hash

end RawPortableSnapshot

namespace CloudSyncState

variable {state : CloudSyncState}

theorem contentHash_eq_ok :
    contentHash snapshot = .ok content ↔ snapshot.syncContentHash = .ok content := by
  rw [contentHash]
  cases snapshot.syncContentHash <;> simp [Except.mapError]

theorem hasContent_eq_true :
    hasContent content remote = .ok true ↔
      ∃ snapshot ∈ remote, snapshot.syncContentHash = .ok content := by
  cases remote
  case none => simp [hasContent]
  case some snapshot =>
    simp only [hasContent, Option.mem_some_iff, exists_eq_left', ← contentHash_eq_ok]
    cases contentHash snapshot <;> simp [Except.map]

theorem decidePush_eq_remember (h : state.decidePush force view = .ok (.remember next)) : next = state ∨
      ∃ head ∈ view.heads.selected, ∃ snapshot ∈ view.remoteSnapshot,
        snapshot.syncContentHash = .ok view.localContent ∧
        next = synced view.localSnapshot.payloadHash view.localContent head := by
  rw [decidePush.eq_def] at h
  split at h
  case h_1 | h_2 => cases h
  case h_3 pointer hs =>
    have ⟨same, hc, h⟩ := bind_eq_ok.mp h
    cases same
    case true =>
      have ⟨snapshot, hm, hc⟩ := hasContent_eq_true.mp hc
      obtain ⟨⟩ := Except.ok.inj h
      exact .inr ⟨pointer, hs, snapshot, hm, hc, rfl⟩
    case false =>
      change state.decidePushChanges view pointer = _ at h
      rw [decidePushChanges] at h
      split at h
      case h_1 => exact .inl (SyncDecision.remember.inj (Except.ok.inj h)).symm
      case h_4 => split at h <;> cases h
      all_goals cases h

theorem decidePush_eq_proceed (h : state.decidePush false view = .ok .proceed) :
    ∀ head ∈ view.heads.selected, state.lastAppliedRemoteRevision = some head.revisionId ∨
      ∀ snapshot ∈ view.remoteSnapshot, snapshot.hasUserContent = false := by
  intro head hh
  rw [decidePush.eq_def, Option.mem_def.mp hh] at h
  have ⟨same, _, h⟩ := bind_eq_ok.mp h
  cases same
  case true => cases h
  case false =>
    change state.decidePushChanges view head = _ at h
    rw [decidePushChanges] at h
    split at h
    case h_2 hr _ => exact .inl (by simpa [remoteChanged] using hr)
    case h_4 =>
      split at h
      case isTrue => cases h
      case isFalse hn =>
        refine .inr fun snapshot hs => ?_
        rw [Option.mem_def.mp hs] at hn
        simpa using hn
    all_goals cases h

theorem decidePull_eq_remember (h : state.decidePull force view = .ok (.remember next)) : next = state ∨
      view.remoteSnapshot.syncContentHash = .ok view.localContent ∧
        next = synced view.localSnapshot.payloadHash view.localContent view.latest := by
  have ⟨same, hc, h⟩ := bind_eq_ok.mp h
  cases same
  case true =>
    have ⟨snapshot, hm, hc⟩ := hasContent_eq_true.mp hc
    split at hm
    case isTrue => cases hm
    obtain rfl := Option.mem_some_iff.mp hm
    obtain ⟨⟩ := Except.ok.inj h
    exact .inr ⟨hc, rfl⟩
  case false =>
    change state.decidePullChanges force view = _ at h
    simp only [decidePullChanges] at h
    split at h
    · split at h <;> cases h
    split at h
    · split at h
      · cases h
      · exact .inl (SyncDecision.remember.inj (Except.ok.inj h)).symm
    · cases h

theorem decidePull_eq_proceed (h : state.decidePull false view = .ok .proceed) :
    state.lastAppliedRemoteRevision ≠ some view.latest.revisionId ∧
      (state.lastSyncedContentHash = some view.localContent ∨
        view.localSnapshot.hasUserContent = false) := by
  have ⟨same, hc, h⟩ := bind_eq_ok.mp h
  cases same
  case true => cases h
  case false =>
    change state.decidePullChanges false view = _ at h
    simp only [decidePullChanges] at h
    split at h
    · split at h <;> cases h
    case isFalse hk =>
      split at h
      · split at h <;> cases h
      case isFalse hn =>
        have hr : state.lastAppliedRemoteRevision ≠ some view.latest.revisionId := by
          simpa [remoteChanged] using hn
        refine ⟨hr, ?_⟩
        simp only [remoteChanged, localContentChanged, hr, decide_true, ne_eq, not_false_eq_true,
          Bool.true_and, Bool.not_false, Bool.and_true, Bool.and_eq_true, decide_eq_true_eq,
          not_and] at hk
        by_cases hl : state.lastSyncedContentHash = some view.localContent
        · exact .inl hl
        · exact .inr (by simpa using hk hl)

end CloudSyncState

end NyaTerm

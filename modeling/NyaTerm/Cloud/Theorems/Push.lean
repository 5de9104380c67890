import NyaTerm.Cloud.Theorems.Steps

open Program

namespace NyaTerm.CloudSync

variable [SnapshotFormat] {t : CloudTrace}
variable {view : PushView}

-- What a push has seen when it decides.
structure PushSeen (t : CloudTrace) (careful : Prop) (shown : RemoteHeads → Prop)
    (view : PushView) : Prop where
  built : ∃ built, Got t .buildSnapshot built ∧ view.localSnapshot.deviceId = built.deviceId ∧
    view.localSnapshot.revisionId = built.revisionId ∧ built.Shows view.localContent
  heads : ReadHeads t view.heads
  accepted : shown view.heads
  asRead : careful → ∃ u, u <:+: t ∧ Runs readHeads u (.ok view.heads)
  single : careful → view.heads.concurrent = false
  selected : ∀ head ∈ view.heads.selected, Readable t head
  remote : ∀ snapshot ∈ view.remoteSnapshot, ∃ head ∈ view.heads.selected, Fetched t head snapshot
  found : careful → ∀ head ∈ view.heads.selected, ∃ snapshot, view.remoteSnapshot = some snapshot

theorem runs_pushRemoteSnapshot (hc : ∀ snapshot ∈ cached, ∃ head ∈ latest, Fetched t head snapshot)
    (h : Runs (pushRemoteSnapshot options force cached latest localHash) u (.ok remote)) :
    (∀ snapshot ∈ remote, ∃ head ∈ latest, Fetched (t ++ u) head snapshot) ∧
      (force = false → latest.isSome → remote.isSome) := by
  rw [pushRemoteSnapshot.eq_def] at h
  split at h
  case h_1 snapshot latest =>
    obtain ⟨rfl, rfl⟩ := runs_pure_ok.mp h
    exact ⟨fun s hs => (hc s hs).imp fun _ hf => ⟨hf.1, hf.2.mono (by simp)⟩, by simp⟩
  case h_2 =>
    obtain ⟨rfl, rfl⟩ := runs_pure_ok.mp h
    simp
  case h_3 pointer =>
    obtain ⟨r, u₁, u₂, rfl, h₁, h₂⟩ := runs_bind_ok.mp h
    have hr {s} (hs : r = .current s ∨ r = .legacyMigrated s) :
        Fetched (t ++ (u₁ ++ u₂)) pointer s :=
      (runs_resolveRemoteSnapshot h₁ hs).mono (by simp)
    cases r
    case inconsistent pointer recoveryCandidate overwriteBlocked =>
      dsimp only at h₂
      split at h₂
      case isTrue hf =>
        obtain ⟨rfl, rfl⟩ := runs_pure_ok.mp h₂
        simp only [Bool.and_eq_true] at hf
        simp [hf.1]
      case isFalse => simp [runs_fail] at h₂
    all_goals
      obtain ⟨rfl, rfl⟩ := runs_pure_ok.mp h₂
      refine ⟨?_, by simp⟩
      rintro _ ⟨⟩
      exact ⟨pointer, rfl, hr (by simp)⟩

theorem staging_pushRemoteSnapshot (options : LocalCloudSyncOptions) (force : Bool)
    (cached : Option RawPortableSnapshot) (latest : Option RemoteSyncPointer) (localHash : String) :
    (pushRemoteSnapshot options force cached latest localHash).Only
      (·.isStaging options.deviceId) := by
  rw [pushRemoteSnapshot.eq_def]
  split <;> simp
  intros
  split <;> simp

theorem staging_pushView (options : LocalCloudSyncOptions) (state : CloudSyncState) (force : Bool)
    (given : Option PreparedSync) :
    (pushView options state force given).Only (·.isStaging options.deviceId) := by
  simp [pushView, ask, staging_pushRemoteSnapshot, CloudRequest.isStaging.eq_4,
    CloudRequest.isPassive.eq_6]

theorem runs_pushView (hp : ∀ prepared ∈ given, Prepares t (force = false) shown prepared)
    (hn : given = none → ∀ r, shown r) (h : Runs (pushView options state force given) u (.ok view)) :
    PushSeen (t ++ u) (force = false) shown view := by
  obtain ⟨c, u, rfl, h₁⟩ := runs_perform_bind_ok.mp h
  obtain ⟨_, u₁, u, rfl, _, h₃⟩ := runs_bind_ok.mp h₁
  obtain ⟨_, u₂, u, rfl, _, h₅⟩ := runs_bind_ok.mp h₃
  obtain ⟨prepared, u₃, u, rfl, h₆, h₇⟩ := runs_bind_ok.mp h₅
  have ⟨projected, hpr, h₉⟩ := runs_portable_bind_ok.mp h₇
  have ⟨localSnapshot, hl, h₁₁⟩ := runs_portable_bind_ok.mp h₉
  have ⟨localContent, hc, h₁₃⟩ := runs_portable_bind_ok.mp h₁₁
  obtain ⟨_, u₄, u, rfl, h₁₄, h₁₅⟩ := runs_bind_ok.mp h₁₃
  obtain ⟨remote, h₁₆, rfl⟩ := runs_bind_pure_ok.mp h₁₅
  let u₀ : CloudTrace := ⟨.checkpoint, .ok c⟩ :: (u₁ ++ u₂)
  have hs := (runs_prepareSync (fun p hm => (hp p hm).append u₀) hn h₆).append u₄
  have ⟨hr, hf⟩ := runs_pushRemoteSnapshot hs.remote h₁₆
  have ht : t ++ ⟨.checkpoint, .ok c⟩ :: (u₁ ++ (u₂ ++ (u₃ ++ (u₄ ++ u)))) =
      t ++ u₀ ++ u₃ ++ u₄ ++ u := by
    simp [u₀]
  rw [ht]
  have hn := hs.append u
  exact {
    built := by
      have ⟨built, hb, hk⟩ := hn.built
      have hpb : built.projectFixed = .ok projected := by
        rcases hk with rfl | hk
        · exact hpr
        · rw [← hpr, RawPortableSnapshot.projectFixed_recalculateHash hk]
      have ⟨_, hrev, hdev⟩ := RawPortableSnapshot.projectFixed_eq_ok hpb
      have hsh := RawPortableSnapshot.syncContentHash_recalculateHash hl
      obtain ⟨_, _, rfl⟩ := RawPortableSnapshot.recalculateHash_eq_ok hl
      exact ⟨built, hb, hdev, hrev, .inr ⟨projected, hpb, hsh ▸ hc⟩⟩
    heads := hn.heads
    accepted := hn.accepted
    asRead := hn.asRead
    single := by
      rintro rfl
      rcases runs_when_ok.mp h₁₄ with ⟨hb, _⟩ | ⟨_, hb⟩
      · cases hb
      · exact (CloudSyncState.requireSuccessor_eq_ok (runs_done.mp hb).2.symm).1
    selected := hn.selected
    remote := hr
    found := by
      intro hc head hh
      exact Option.isSome_iff_exists.mp (hf hc (Option.isSome_iff_exists.mpr ⟨head, hh⟩))
  }

variable {options : LocalCloudSyncOptions} {state : CloudSyncState}

section

variable (hv : PushSeen t (force = false) shown view)
  (hd : state.decidePush force view = .ok .proceed) (hu : Unwritten t)
include hv hd hu

theorem PushSeen.commits {clock : SnapshotSyncClock}
    (hc : view.heads.nextClock state.lastSyncedClock options.deviceId = .ok clock) :
    Commits t ⟨options.deviceId, state, force = false, shown⟩ (.ofSnapshot
      { view.localSnapshot with deviceName := options.deviceName, syncClock := some clock }) where
  origin := by
    have ⟨built, hb, hdev, hrev, _⟩ := hv.built
    exact .inl ⟨built, hb, hdev, hrev⟩
  ticks := ⟨view.heads, state.lastSyncedClock, clock, hv.heads, hv.accepted, .inl rfl, hc, rfl⟩
  single := by
    rintro rfl
    have ⟨u, hi, hr⟩ := hv.asRead rfl
    refine ⟨u, view.heads, hi, hr, hv.single rfl, ⟨clock, hc, rfl⟩, fun selected hs => ?_⟩
    rcases CloudSyncState.decidePush_eq_proceed hd selected hs with hk | hk
    · exact .inl hk
    · have ⟨snapshot, hr⟩ := hv.found rfl selected hs
      have ⟨head, hh, hf⟩ := hv.remote snapshot hr
      obtain rfl := Option.mem_unique hs hh
      exact .inr ⟨snapshot, hf, hk snapshot hr⟩
  first := hu

theorem obeys_uploadAndCommit :
    (uploadAndCommit options state force view).Obeys
      (Permits ⟨options.deviceId, state, force = false, shown⟩) t := by
  refine obeys_done_bind fun clock hc => ?_
  have hk := hv.commits hd hu hc
  refine obeys_bind (obeys_of_staging (staging_uploadSyncSnapshot options ..)) fun u bytes h₁ => ?_
  refine obeys_bind (obeys_when fun _ => obeys_of_passive (passive_ensureRemoteHeadUnchanged _))
    fun v _ h₂ => ?_
  refine obeys_bind (obeys_commitHead ?_ bytes) fun _ _ _ => obeys_pure
  refine (hk.append (unwritten_of_staging (staging_uploadSyncSnapshot options ..) h₁)).append ?_
  exact unwritten_of_passive (by simp) h₂

end

theorem runs_uploadAndCommit (h : Runs (uploadAndCommit options state force view) t (.ok pointer)) :
    Publishes t pointer := by
  obtain ⟨clock, u₁, u, rfl, _, h₁⟩ := runs_bind_ok.mp h
  obtain ⟨bytes, u₂, u, rfl, _, h₂⟩ := runs_bind_ok.mp h₁
  obtain ⟨_, u₃, u, rfl, _, h₃⟩ := runs_bind_ok.mp h₂
  obtain ⟨_, h₄, rfl⟩ := runs_bind_pure_ok.mp h₃
  exact (runs_commitHead h₄).mono fun e he => by simp [he]

theorem PushSeen.adopts (hv : PushSeen t careful shown view)
    (hd : state.decidePush force view = .ok (.remember next)) : Adopts t state next := by
  rcases CloudSyncState.decidePush_eq_remember hd with rfl | ⟨head, hh, snapshot, hs, hc, rfl⟩
  · exact .same rfl rfl
  · have ⟨built, hb, _, _, hsh⟩ := hv.built
    have ⟨found, hf, hr⟩ := hv.remote snapshot hs
    obtain rfl := Option.mem_unique hh hf
    have hm : Matches t head :=
      ⟨hv.selected head hh, built, _, hb, hsh, .inl ⟨snapshot, hr, hc⟩⟩
    exact .head (.inr hm) rfl rfl

theorem obeys_pushPrepared
    (hp : ∀ prepared ∈ given, Prepares t (force = false) shown prepared)
    (hn : given = none → ∀ r, shown r) (hu : Unwritten t) :
    (pushPrepared options state force given).Obeys
      (Permits ⟨options.deviceId, state, force = false, shown⟩) t := by
  refine obeys_bind (obeys_of_staging (staging_pushView options state force given))
    fun u view h₁ => ?_
  have hv := runs_pushView hp hn h₁
  have hu := hu.append (unwritten_of_staging (staging_pushView options state force given) h₁)
  refine obeys_done_bind fun decision hd => ?_
  cases decision
  case remember next =>
    exact obeys_perform_bind (.persist (hv.adopts hd)) fun _ => obeys_pure
  case proceed =>
    refine obeys_bind (obeys_uploadAndCommit hv hd hu) fun v pointer h₃ => ?_
    refine obeys_perform_bind (.persist ?_) fun _ => obeys_pure
    exact .head (.inl (runs_uploadAndCommit h₃).right) rfl rfl

end NyaTerm.CloudSync

import NyaTerm.Cloud.Theorems.Steps

open Program

namespace NyaTerm.CloudSync

open CloudSyncState RawPortableSnapshot

variable [SnapshotFormat] {t : CloudTrace}
variable {view : PullView}

variable {state : CloudSyncState} {careful : Prop}

-- What a pull has seen when it decides.
structure PullSeen (t : CloudTrace) (state : CloudSyncState) (careful : Prop)
    (shown : RemoteHeads → Prop) (view : PullView) : Prop where
  built : ∃ built, Got t .buildSnapshot built ∧ built.syncContentHash = .ok view.localContent ∧
    built.hasUserContent = view.localSnapshot.hasUserContent
  heads : ReadHeads t view.heads
  accepted : shown view.heads
  readable : Readable t view.latest
  fetched : Fetched t view.latest view.remoteSnapshot
  single : careful → view.heads.concurrent = false
  successor : careful → state.remotePrecedesBaseline view.latest = false ∧
    state.remoteConcurrentWithBaseline view.latest = false

theorem runs_pullRemoteSnapshot (hc : ∀ snapshot ∈ cached, Fetched t latest snapshot)
    (h : Runs (pullRemoteSnapshot options cached latest localHash) u (.ok remote)) :
    Fetched (t ++ u) latest remote := by
  cases cached
  case some snapshot =>
    have ⟨rfl, rfl⟩ := runs_pure_ok.mp h
    exact (hc _ rfl).mono (by simp)
  case none =>
    obtain ⟨r, u₁, u₂, rfl, h₁, h₂⟩ := runs_bind_ok.mp h
    have hr {s} (hs : r = .current s ∨ r = .legacyMigrated s) :
        Fetched (t ++ (u₁ ++ u₂)) latest s :=
      (runs_resolveRemoteSnapshot h₁ hs).mono fun e he => by simp [he]
    cases r
    case inconsistent => simp [runs_fail] at h₂
    all_goals
      have ⟨rfl, rfl⟩ := runs_pure_ok.mp h₂
      exact hr (by simp)

theorem staging_pullRemoteSnapshot (options : LocalCloudSyncOptions)
    (cached : Option RawPortableSnapshot) (latest : RemoteSyncPointer) (localHash : String) :
    (pullRemoteSnapshot options cached latest localHash).Only (·.isStaging options.deviceId) := by
  cases cached <;> simp [pullRemoteSnapshot]
  intros
  split <;> simp

theorem staging_pullView (options : LocalCloudSyncOptions) (state : CloudSyncState) (force : Bool)
    (given : Option PreparedSync) :
    (pullView options state force given).Only (·.isStaging options.deviceId) := by
  simp [pullView, ask, CloudRequest.isStaging.eq_4, CloudRequest.isPassive.eq_6]
  intros
  split <;> simp [staging_pullRemoteSnapshot]

theorem runs_when_done_ok (h : Runs ((.done r : CloudSync Unit).when b) t (.ok ())) :
    t = [] ∧ (b = true → r = .ok ()) := by
  rcases runs_when_ok.mp h with ⟨rfl, rfl⟩ | ⟨rfl, h⟩
  · simp
  · have ⟨rfl, rfl⟩ := runs_done.mp h
    simp

theorem runs_pullView
    (hp : ∀ prepared ∈ given, Prepares t careful shown prepared) (hn : given = none → ∀ r, shown r)
    (h : Runs (pullView options state force given) u (.ok view)) :
    PullSeen (t ++ u) state (force = false) shown view := by
  obtain ⟨c, u, rfl, h₁⟩ := runs_perform_bind_ok.mp h
  obtain ⟨_, u₁, u, rfl, _, h₂⟩ := runs_bind_ok.mp h₁
  obtain ⟨_, u₂, u, rfl, _, h₃⟩ := runs_bind_ok.mp h₂
  obtain ⟨prepared, u₃, u, rfl, h₄, h₅⟩ := runs_bind_ok.mp h₃
  dsimp only at h₅
  cases hs : prepared.heads.selected
  case none => simp [hs, runs_fail] at h₅
  case some latest =>
    rw [hs] at h₅
    obtain ⟨_, _, u, rfl, h₆, h₇⟩ := runs_bind_ok.mp h₅
    obtain ⟨rfl, hb⟩ := runs_when_done_ok h₆
    have ⟨localSnapshot, hl, h₉⟩ := runs_portable_bind_ok.mp h₇
    obtain ⟨_, _, u, rfl, h₁₀, h₁₁⟩ := runs_bind_ok.mp h₉
    obtain ⟨rfl, hg⟩ := runs_when_done_ok h₁₀
    obtain ⟨remote, u₄, u, rfl, h₁₂, h₁₃⟩ := runs_bind_ok.mp h₁₁
    obtain ⟨content, h₁₄, rfl⟩ := runs_bind_pure_ok.mp h₁₃
    obtain ⟨rfl, hc⟩ := runs_portable.mp h₁₄
    let u₀ : CloudTrace := ⟨.checkpoint, .ok c⟩ :: (u₁ ++ u₂)
    have hn := runs_prepareSync (fun p hm => (hp p hm).append u₀) hn h₄
    have ht : t ++ ⟨.checkpoint, .ok c⟩ :: (u₁ ++ (u₂ ++ (u₃ ++ ([] ++ ([] ++ (u₄ ++ [])))))) =
        t ++ u₀ ++ u₃ ++ u₄ := by
      simp [u₀]
    rw [ht]
    have hr : ∀ snapshot ∈ prepared.remote, Fetched (t ++ u₀ ++ u₃) latest snapshot := by
      intro snapshot hm
      have ⟨head, hh, hf⟩ := hn.remote snapshot hm
      obtain rfl := Option.mem_unique hs hh
      exact hf
    have hm := hn.append u₄
    exact {
      built := by
        have ⟨built, hb, hk⟩ := hm.built
        refine ⟨built, hb, ?_, ?_⟩
        · rw [← hc, syncContentHash_recalculateHash hl]
          rcases hk with rfl | hk
          · rfl
          · exact (syncContentHash_recalculateHash hk).symm
        · rw [hasUserContent_recalculateHash hl]
          rcases hk with rfl | hk
          · rfl
          · exact (hasUserContent_recalculateHash hk).symm
      heads := hm.heads
      accepted := hm.accepted
      readable := hm.selected latest hs
      fetched := runs_pullRemoteSnapshot hr h₁₂
      single := by
        rintro rfl
        exact requireSingle_eq_ok (hg rfl)
      successor := by
        rintro rfl
        exact validateRemoteBaseline_eq_ok (hb rfl)
    }

theorem PullSeen.append (h : PullSeen t state careful shown view) (u : CloudTrace) :
    PullSeen (t ++ u) state careful shown view :=
  { h with
    built := h.built.imp fun _ hb => ⟨hb.1.left, hb.2⟩
    heads := h.heads.mono (List.prefix_append t u).isInfix
    readable := h.readable.mono (by simp)
    fetched := h.fetched.mono (by simp) }

section

variable (hv : PullSeen t state (force = false) shown view)
include hv

theorem PullSeen.not_requiresResolution
    (hf : force = false) : state.requiresResolution view = false := by
  have ⟨hp, hc⟩ := hv.successor hf
  simp [requiresResolution, hv.single hf, hp, hc]

theorem obeys_takeBranch (hu : Unwritten t) :
    (takeBranch options state view).Obeys
      (Permits ⟨options.deviceId, state, force = false, shown⟩) t := by
  refine obeys_ite (fun hr => ?_) fun _ => obeys_pure
  refine obeys_portable_bind fun projected _ => ?_
  refine obeys_perform_bind (.staging rfl) fun revision => ?_
  refine obeys_perform_bind (.staging rfl) fun now => ?_
  refine obeys_done_bind fun clock hc => ?_
  refine obeys_portable_bind fun snapshot hs => ?_
  refine obeys_bind (obeys_of_staging (staging_uploadSyncSnapshot options ..)) fun u bytes h₄ => ?_
  refine obeys_bind (obeys_commitHead ?_ bytes) fun _ _ _ => obeys_pure
  refine Commits.append ?_ (unwritten_of_staging (staging_uploadSyncSnapshot options ..) h₄)
  have ⟨hrev, hdev, hclk⟩ := recalculateHash_meta hs
  simp only [List.append_assoc]
  refine .of_newRevision hdev ?_ (hv.heads.mono (List.prefix_append ..).isInfix) hv.accepted
    (.inl rfl) hc hclk ?_ ?_
  · simp [Got, RemoteSyncPointer.ofSnapshot, hrev]
  · intro hf
    simp [hv.not_requiresResolution hf] at hr
  · exact hu.append (.append (unwritten_singleton rfl _) (unwritten_singleton rfl _))

omit hv in
theorem runs_takeBranch (h : Runs (takeBranch options state view) t (.ok (snapshot, pointer))) :
    (state.requiresResolution view = false ∧ snapshot = view.remoteSnapshot ∧
      pointer = view.latest) ∨
    (state.requiresResolution view = true ∧ Publishes t pointer ∧
      pointer = .ofSnapshot snapshot) := by
  rw [takeBranch] at h
  split at h
  case isFalse hr =>
    have ⟨_, ho⟩ := runs_pure.mp h
    have ⟨rfl, rfl⟩ := Prod.mk.inj (Except.ok.inj ho)
    exact .inl ⟨by simpa using hr, rfl, rfl⟩
  case isTrue hr =>
    obtain ⟨_, _, t, rfl, _, h₁⟩ := runs_bind_ok.mp h
    obtain ⟨_, t, rfl, h₂⟩ := runs_perform_bind_ok.mp h₁
    obtain ⟨_, t, rfl, h₃⟩ := runs_perform_bind_ok.mp h₂
    obtain ⟨_, _, t, rfl, _, h₄⟩ := runs_bind_ok.mp h₃
    obtain ⟨_, _, t, rfl, _, h₅⟩ := runs_bind_ok.mp h₄
    obtain ⟨_, _, t, rfl, _, h₆⟩ := runs_bind_ok.mp h₅
    have ⟨_, h₇, ho⟩ := runs_bind_pure_ok.mp h₆
    have ⟨rfl, rfl⟩ := Prod.mk.inj ho
    exact .inr ⟨hr, (runs_commitHead h₇).mono fun e he => by simp [he], rfl⟩

omit hv in
theorem PullSeen.adopts (hv : PullSeen t state careful shown view)
    (hd : state.decidePull force view = .ok (.remember next)) : Adopts t state next := by
  rcases decidePull_eq_remember hd with rfl | ⟨hc, rfl⟩
  · exact .same rfl rfl
  · have ⟨built, hb, hs, _⟩ := hv.built
    have hm : Matches t view.latest :=
      ⟨hv.readable, built, _, hb, .inl hs, .inl ⟨_, hv.fetched, hc⟩⟩
    exact .head (.inr hm) rfl rfl

theorem PullSeen.applies (hd : state.decidePull force view = .ok .proceed)
    (h : Runs (takeBranch options state view) u (.ok (snapshot, pointer))) :
    Applies (t ++ u) state (force = false) snapshot view.localContent { state with
      lastSyncedClock := pointer.syncClock
      lastAppliedRemoteRevision := some snapshot.revisionId } := by
  rcases runs_takeBranch h with ⟨_, rfl, rfl⟩ | ⟨hr, hp, rfl⟩
  · have hf : Fetched (t ++ u) view.latest view.remoteSnapshot := hv.fetched.mono (by simp)
    refine ⟨⟨view.latest, .inr ⟨hv.readable.mono (by simp), hf⟩, rfl, rfl⟩, ?_, ?_⟩
    · rintro rfl
      have ⟨hp, hc⟩ := hv.successor rfl
      rw [(RemoteSyncPointer.validate_eq_ok.mp hf.fits).2.1]
      exact dominates_baseline hp hc (decidePull_eq_proceed hd).1
    · rintro rfl
      have ⟨built, hb, hs, hu⟩ := hv.built
      refine ⟨built, hb.left, hs, ?_⟩
      rw [hu]
      exact (decidePull_eq_proceed hd).2
  · refine ⟨⟨_, .inl ⟨hp.right, rfl⟩, rfl, rfl⟩, ?_, ?_⟩
    all_goals
      intro hf
      simp [hv.not_requiresResolution hf] at hr

end

theorem obeys_pullPrepared
    (hp : ∀ prepared ∈ given, Prepares t (force = false) shown prepared)
    (hn : given = none → ∀ r, shown r) (hu : Unwritten t) :
    (pullPrepared options state force given).Obeys
      (Permits ⟨options.deviceId, state, force = false, shown⟩) t := by
  refine obeys_bind (obeys_of_staging (staging_pullView options state force given))
    fun u view h₁ => ?_
  have hv := runs_pullView hp hn h₁
  have hu := hu.append (unwritten_of_staging (staging_pullView options state force given) h₁)
  refine obeys_done_bind fun decision hd => ?_
  cases decision
  case remember next =>
    exact obeys_perform_bind (.persist (hv.adopts hd)) fun _ => obeys_pure
  case proceed =>
    refine obeys_perform_bind (.staging rfl) fun applying => ?_
    have hs := unwritten_singleton (c := .beforeApply) rfl (.ok applying)
    have hv := hv.append [⟨.beforeApply, .ok applying⟩]
    refine obeys_bind (obeys_takeBranch hv (hu.append hs)) fun v taken h₃ => ?_
    exact obeys_perform_bind (.apply (hv.applies hd h₃)) fun _ => obeys_pure

end NyaTerm.CloudSync

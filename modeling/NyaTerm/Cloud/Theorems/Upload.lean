import NyaTerm.Cloud.Theorems.Gc

open Program

namespace NyaTerm

variable [SnapshotFormat]
-- Calls by which a device brings a snapshot to the remote storage. No head is published by them,
-- and nothing but snapshots is deleted.
def CloudRequest.isStaging (device : String) : CloudRequest → Bool
  | write (.pendingHead owner) bytes =>
    owner = device && (SnapshotFormat.decodeHead bytes).all (·.committed.isNone)
  | write (.snapshot _) _ => true
  | delete path => path.snapshotRevision.isSome
  | c => c.isPassive

theorem CloudRequest.isStaging_of_isPassive {c : CloudRequest} (h : c.isPassive) :
    c.isStaging device := by
  cases c <;> first | exact h | cases h

-- Calls that write no head.
def CloudRequest.isHeadless : CloudRequest → Bool
  | write (.head _) _ => false
  | _ => true

theorem CloudRequest.isHeadless_of_isStaging {c : CloudRequest} (h : c.isStaging device) :
    c.isHeadless := by
  cases c
  case write path bytes => cases path <;> first | rfl | cases h
  all_goals rfl

namespace CloudSync

section Staging

variable {p : CloudSync α}

attribute [local simp] CloudRequest.isPassive.eq_6 CloudRequest.isStaging.eq_2
  CloudRequest.isStaging.eq_3 CloudRequest.isStaging.eq_4 ask

@[simp]
theorem staging_of_passive (h : p.Only (·.isPassive)) : p.Only (·.isStaging d) :=
  h.mono fun _ => CloudRequest.isStaging_of_isPassive

theorem staging_of_quiet (h : p.Only fun c => c.isPassive ∧ c.isQuiet) :
    p.Only (·.isStaging device) :=
  h.mono fun _ hc => CloudRequest.isStaging_of_isPassive hc.1

theorem staging_freeCapacity (h : ∀ candidate ∈ candidates, candidate.path.snapshotRevision.isSome) :
    (freeCapacity needed freed inUse candidates).Only (·.isStaging device) := by
  induction candidates generalizing freed inUse <;> simp_all [freeCapacity]

theorem staging_countMissing (paths : List RemotePath) :
    (countMissing paths).Only (·.isStaging device) := by
  induction paths <;> simp_all [countMissing]

theorem staging_reserveSnapshotCapacity (options : LocalCloudSyncOptions)
    (expected : Option RemoteSyncPointer) (target : String) :
    (reserveSnapshotCapacity options expected target).Only (·.isStaging device) := by
  simp [reserveSnapshotCapacity]
  rintro _ (_ | capacity) _
  case none => simp
  simp [staging_countMissing, staging_of_quiet quiet_currentRevision,
    staging_of_quiet (quiet_capacityCandidates ..)]
  refine fun _ _ _ _ _ _ _ _ clocks _ _ _ _ _ _ _ t candidates h₁ =>
    staging_freeCapacity fun candidate hm => ?_
  have ⟨snapshot, hs, _⟩ :=
    (runs_capacityCandidates h₁ candidate ((List.mem_insertionSort _).mp hm)).readable
  rw [hs.1]
  rfl

theorem staging_deletePlanned (h : ∀ path ∈ paths, path.snapshotRevision.isSome) :
    (deletePlanned inUse firstError paths).Only (·.isStaging device) := by
  induction paths generalizing inUse firstError
  case nil => simp [deletePlanned]
  case cons path paths hi =>
    have ⟨hp, hn⟩ := List.forall_mem_cons.mp h
    simp [deletePlanned, hi hn, hp]
    intros
    split <;> exact hi hn

theorem staging_cleanupSyncSnapshots (latest : Option RemoteSyncPointer) :
    (cleanupSyncSnapshots latest).Only (·.isStaging device) := by
  simp [cleanupSyncSnapshots, staging_of_quiet (quiet_inspectSnapshots ..)]
  intro _ _ _ _ revisions _ _ clocks _ _ paths _ t entries h₁ _ now _
  refine ⟨staging_deletePlanned fun path hp => ?_, fun _ firstError _ _ _ => ?_⟩
  · obtain ⟨entry, he, rfl, _⟩ := mem_planSnapshotGc hp
    rw [((runs_inspectSnapshots h₁).2 entry he).revision]
    rfl
  · cases firstError <;> simp

@[simp]
theorem passive_verifyRecord (path : RemotePath) (bytes : Bytes) (attempts : Nat) :
    (verifyRecord path bytes attempts).Only (·.isPassive) := by
  induction attempts <;> simp_all [verifyRecord]

@[simp]
theorem staging_stage (revision : String) : (stage device revision).Only (·.isStaging device) := by
  simp [stage, writeRecord, CloudRequest.isStaging.eq_1, SnapshotFormat.decodeHead_encodeHead]

variable (options : LocalCloudSyncOptions)

section

variable (pointer) (expected : Option RemoteSyncPointer) (bytes : Bytes)

@[simp]
theorem staging_attemptWrite (stageDevice writes : Bool) :
    (attemptWrite options pointer expected bytes stageDevice writes).Only
      (·.isStaging options.deviceId) := by
  cases writes <;> simp [attemptWrite, staging_reserveSnapshotCapacity]

theorem staging_uploadAttempts (stageDevice capacityLimited first : Bool) (attempts : Nat) :
    (uploadAttempts options pointer expected bytes stageDevice capacityLimited first attempts).Only
      (·.isStaging options.deviceId) := by
  induction attempts generalizing first
  case zero => simp [uploadAttempts]
  case succ attempts hi =>
    simp [uploadAttempts]
    rintro _ (_ | _) _ <;> simp [hi]
    rintro _ (_ | _) _ <;> simp [hi]

@[simp]
theorem staging_uploadVerifiedSnapshot (stageDevice : Bool) :
    (uploadVerifiedSnapshot options pointer expected bytes stageDevice).Only
      (·.isStaging options.deviceId) := by
  simp [uploadVerifiedSnapshot, staging_uploadAttempts]

end

@[simp]
theorem staging_uploadSyncSnapshot (snapshot : RawPortableSnapshot)
    (expected : Option RemoteSyncPointer) :
    (uploadSyncSnapshot options snapshot expected).Only (·.isStaging options.deviceId) := by
  simp [uploadSyncSnapshot]

@[simp]
theorem staging_resolveRemoteSnapshot (pointer : RemoteSyncPointer) :
    (resolveRemoteSnapshot options pointer).Only (·.isStaging options.deviceId) := by
  simp [resolveRemoteSnapshot]
  rintro _ (_ | _) _ <;> simp
  intros
  split <;> simp
  rintro _ _ _ (_ | _) _ <;> simp

end Staging

-- This snapshot was decoded, and it is the one that the pointer stands for.
structure Fetched (t : CloudTrace) (pointer : RemoteSyncPointer) (snapshot : RawPortableSnapshot) :
    Prop where
  decoded : ∃ bytes, Got t (.decodeSnapshot bytes) snapshot
  fits : pointer.validate snapshot = .ok ()

theorem Fetched.mono (h : Fetched t pointer snapshot) (hu : t ⊆ u) : Fetched u pointer snapshot :=
  ⟨h.decoded.imp fun _ hg => hg.mono hu, h.fits⟩

theorem Validated.fetched (h : Validated t pointer snapshot) : Fetched t pointer snapshot := by
  have ⟨bytes, _, hd, hv⟩ := h
  exact ⟨⟨bytes, hd⟩, hv⟩

theorem runs_readCurrent (h : Runs readCurrent t (.ok (some snapshot))) :
    ∃ bytes, Got t (.decodeSnapshot bytes) snapshot := by
  obtain ⟨bytes, t, rfl, h₁⟩ := runs_perform_bind_ok.mp h
  cases bytes
  case none => simp [runs_pure] at h₁
  case some bytes =>
    obtain ⟨_, t₁, t₂, rfl, _, h₃⟩ := runs_bind_ok.mp h₁
    have ⟨s, h₄, hs⟩ := runs_bind_pure_ok.mp h₃
    obtain rfl := Option.some.inj hs
    exact ⟨bytes, .tail _ (runs_decodeRemoteSnapshot h₄).right⟩

theorem runs_repairs (h : Runs (repairs pointer current) t (.ok true)) :
    pointer.validate current = .ok () := by
  rw [repairs] at h
  split at h
  case isTrue hv => exact hv
  case isFalse => simp [runs_pure] at h

theorem runs_resolveRemoteSnapshot (h : Runs (resolveRemoteSnapshot options pointer) t (.ok r))
    (hr : r = .current snapshot ∨ r = .legacyMigrated snapshot) : Fetched t pointer snapshot := by
  obtain ⟨read, t₁, t₂, rfl, h₁, h₂⟩ := runs_bind_ok.mp h
  have h₃ := runs_attempt_ok.mp h₁
  cases read
  case ok found =>
    obtain ⟨rfl, rfl⟩ := runs_pure_ok.mp h₂
    rcases hr with ⟨⟨⟩⟩ | ⟨⟨⟩⟩
    rw [List.append_nil]
    exact (runs_readSnapshotForPointer h₃).fetched
  case error error =>
    dsimp only at h₂
    split at h₂
    case isTrue => simp [runs_fail] at h₂
    obtain ⟨current, t₃, t₄, rfl, h₄, h₅⟩ := runs_bind_ok.mp h₂
    have h₆ := runs_attempt_ok.mp h₄
    split at h₅
    case h_1 current =>
      obtain ⟨repaired, t₅, t₆, rfl, h₇, h₈⟩ := runs_bind_ok.mp h₅
      cases repaired
      case false =>
        obtain ⟨rfl, rfl⟩ := runs_pure_ok.mp h₈
        simp at hr
      case true =>
        obtain ⟨bytes, t₇, rfl, h₉⟩ := runs_perform_bind_ok.mp h₈
        cases bytes
        case none => simp [runs_fail] at h₉
        case some bytes =>
          obtain ⟨_, t₈, t₉, rfl, _, h₁₀⟩ := runs_bind_ok.mp h₉
          obtain ⟨_, _, rfl⟩ := runs_bind_pure_ok.mp h₁₀
          rcases hr with ⟨⟨⟩⟩ | ⟨⟨⟩⟩
          refine ⟨?_, runs_repairs h₇⟩
          exact (runs_readCurrent h₆).imp fun _ hg => hg.left.right
    all_goals
      first
      | simp only [runs_fail, reduceCtorEq, and_false] at h₅
      | obtain ⟨rfl, rfl⟩ := runs_pure_ok.mp h₅
        simp at hr

end CloudSync

end NyaTerm

import Mathlib.Data.List.TakeWhile
import NyaTerm.Cloud.Theorems.Calls

open List

open Program

namespace NyaTerm

open CloudRequest

section

variable [SnapshotFormat] {t : CloudTrace}
variable {path : RemotePath}
variable {s : CloudTrace}

-- Calls by which neither a head nor the shared pointer comes to light.
def CloudRequest.isQuiet : CloudRequest → Bool
  | readIfExists path => !path.isHead
  | decodePointer _ => false
  | _ => true

variable {pointer : RemoteSyncPointer}

namespace RemoteSyncPointer

theorem validate_eq_ok :
    pointer.validate snapshot = .ok () ↔ snapshot.revisionId = pointer.revisionId ∧
      snapshot.syncClock = pointer.syncClock ∧
      snapshot.sourcePayloadHash = pointer.payloadHash := by
  rw [validate]
  split
  · simp_all
  split
  · simp_all [eq_comm]
  split <;> simp_all

end RemoteSyncPointer

namespace CloudSync

-- This snapshot is what was read for the pointer, and it fits.
def Validated (t : CloudTrace) (pointer : RemoteSyncPointer) (snapshot : RawPortableSnapshot) :
    Prop :=
  ∃ bytes, Got t (.readIfExists (.snapshot pointer.revisionId)) (some bytes) ∧
    Got t (.decodeSnapshot bytes) snapshot ∧ pointer.validate snapshot = .ok ()

theorem Validated.fits (h : Validated t pointer snapshot) :
    snapshot.revisionId = pointer.revisionId ∧
      snapshot.syncClock = pointer.syncClock ∧
      snapshot.sourcePayloadHash = pointer.payloadHash := by
  have ⟨_, _, _, hv⟩ := h
  exact RemoteSyncPointer.validate_eq_ok.mp hv

theorem Validated.mono (h : Validated t pointer snapshot) (hu : t ⊆ u) :
    Validated u pointer snapshot :=
  h.imp fun _ h => ⟨h.1.mono hu, h.2.1.mono hu, h.2.2⟩

theorem runs_decodeRemoteSnapshot (h : Runs (decodeRemoteSnapshot bytes revision) t (.ok snapshot)) :
    Got t (.decodeSnapshot bytes) snapshot := by
  obtain ⟨r, t₁, t₂, rfl, h₁, h₂⟩ := runs_bind_ok.mp h
  obtain rfl := runs_perform.mp (runs_attempt_ok.mp h₁)
  split at h₂
  · obtain ⟨rfl, rfl⟩ := runs_pure_ok.mp h₂
    exact .head _
  · obtain ⟨_, _, _, _, _, h₄⟩ := runs_bind_ok.mp h₂
    simp [runs_fail] at h₄
  · split at h₂ <;> simp [runs_fail] at h₂
  · simp [runs_fail] at h₂

theorem runs_decodeAndValidate (h : Runs (decodeAndValidate bytes pointer) t (.ok snapshot)) :
    Got t (.decodeSnapshot bytes) snapshot ∧ pointer.validate snapshot = .ok () := by
  obtain ⟨_, t₁, t₂, rfl, _, h₂⟩ := runs_bind_ok.mp h
  obtain ⟨s, t₂, t₃, rfl, h₃, h₄⟩ := runs_bind_ok.mp h₂
  obtain ⟨_, h₅, rfl⟩ := runs_bind_pure_ok.mp h₄
  exact ⟨(runs_decodeRemoteSnapshot h₃).left.right, (runs_done.mp h₅).2.symm⟩

theorem runs_readSnapshotForPointer
    (h : Runs (readSnapshotForPointer pointer) t (.ok snapshot)) :
    Validated t pointer snapshot := by
  obtain ⟨bytes, t, rfl, h₁⟩ := runs_perform_bind_ok.mp h
  cases bytes
  case none => simp [runs_fail] at h₁
  case some bytes =>
    have ⟨hd, hv⟩ := runs_decodeAndValidate h₁
    exact ⟨bytes, .head _, .tail _ hd, hv⟩

-- The heads that count as published: the given one, and those that were read.
def Committed (t : CloudTrace) (latest : Option RemoteSyncPointer) (head : RemoteSyncPointer) :
    Prop :=
  head ∈ latest ∨ ∃ record, Record t record ∧ record.committed = some head

theorem Committed.mono {head : RemoteSyncPointer}
    (h : Committed t latest head) (hu : t ⊆ u) : Committed u latest head :=
  h.imp_right fun ⟨record, hr, hc⟩ => ⟨record, hr.mono hu, hc⟩

-- A clock of such a head that its own snapshot confirms.
def Authenticated (t : CloudTrace) (latest : Option RemoteSyncPointer)
    (clock : SnapshotSyncClock) : Prop :=
  ∃ head snapshot, Committed t latest head ∧ Validated t head snapshot ∧
    head.syncClock = some clock

theorem Authenticated.mono
    (h : Authenticated t latest clock) (hu : t ⊆ u) : Authenticated u latest clock := by
  have ⟨head, snapshot, hc, hv, hs⟩ := h
  exact ⟨head, snapshot, hc.mono hu, hv.mono hu, hs⟩

theorem runs_authenticateClocks (h : Runs (authenticateClocks seen heads) t (.ok clocks))
    (hc : clock ∈ clocks) :
    ∃ head ∈ heads, (∃ snapshot, Validated t head snapshot) ∧ head.syncClock = some clock := by
  induction heads generalizing seen t clocks
  case nil =>
    obtain ⟨rfl, rfl⟩ := runs_pure_ok.mp h
    cases hc
  case cons head heads hi =>
    rw [authenticateClocks] at h
    split at h
    case isFalse => exact (hi h hc).imp fun _ hh => ⟨.tail _ hh.1, hh.2⟩
    obtain ⟨snapshot, t₁, t₂, rfl, h₁, h₂⟩ := runs_bind_ok.mp h
    obtain ⟨rest, h₃, rfl⟩ := runs_bind_pure_ok.mp h₂
    have hv := runs_readSnapshotForPointer h₁
    rcases mem_append.mp hc with hc | hc
    · have hs : head.syncClock = some clock := by simpa [hv.fits.2.1] using hc
      exact ⟨head, .head _, ⟨snapshot, hv.mono (by simp)⟩, hs⟩
    · obtain ⟨head, hh, ⟨snapshot, hv⟩, hs⟩ := hi h₃ hc
      exact ⟨head, .tail _ hh, ⟨snapshot, hv.mono (by simp)⟩, hs⟩

theorem runs_authenticatedCommitClocks
    (h : Runs (authenticatedCommitClocks latest) t (.ok clocks)) :
    ∀ clock ∈ clocks, Authenticated t latest clock := by
  intro clock hc
  obtain ⟨heads, t₁, t₂, rfl, h₁, h₂⟩ := runs_bind_ok.mp h
  obtain ⟨records, h₃, rfl⟩ := runs_bind_pure_ok.mp h₁
  have ⟨paths, hp, hr⟩ := runs_readRecords h₃
  have ⟨head, hh, ⟨snapshot, hv⟩, hs⟩ := runs_authenticateClocks h₂ hc
  refine ⟨head, snapshot, ?_, hv.mono (by simp), hs⟩
  rcases mem_append.mp hh with hh | hh
  · have ⟨record, hm, hc⟩ := mem_filterMap.mp hh
    exact .inr ⟨record, (hr.sound record hm).mono (by simp), hc⟩
  · exact .inl (by simpa using hh)

-- This snapshot is what was read at this path, which is named after it.
def Stored (t : CloudTrace) (path : RemotePath) (snapshot : RawPortableSnapshot) : Prop :=
  path.snapshotRevision = some snapshot.revisionId ∧
    ∃ bytes, Got t (.readIfExists path) (some bytes) ∧ Got t (.decodeSnapshot bytes) snapshot

theorem Stored.mono (h : Stored t path snapshot) (hu : t ⊆ u) : Stored u path snapshot :=
  ⟨h.1, h.2.imp fun _ h => ⟨h.1.mono hu, h.2.mono hu⟩⟩

-- What an entry of the collector says of the file that it stands for. A file that cannot be read
-- counts as the oldest of all, and it is kept.
structure Inspected (t : CloudTrace) (inUse : List String) (clocks : List SnapshotSyncClock)
    (entry : SnapshotGcEntry) : Prop where
  revision : entry.path.snapshotRevision = some entry.revisionId
  unused : entry.revisionId ∉ inUse
  readable : entry.deletable ∨ entry.createdAtMs ≠ 0 → ∃ snapshot, Stored t entry.path snapshot ∧
    entry.createdAtMs = snapshot.createdAtMs ∧
    (entry.deletable → snapshot.causallyCollectable clocks)

theorem runs_inspectSnapshot
    (h : Runs (inspectSnapshot clocks path revision) t (.ok entry))
    (hp : path.snapshotRevision = some revision) :
    entry.path = path ∧ entry.revisionId = revision ∧
      (entry.deletable ∨ entry.createdAtMs ≠ 0 → ∃ snapshot, Stored t path snapshot ∧
        entry.createdAtMs = snapshot.createdAtMs ∧
        (entry.deletable → snapshot.causallyCollectable clocks)) := by
  obtain ⟨r, t₁, t₂, rfl, h₁, h₂⟩ := runs_bind_ok.mp h
  obtain rfl := runs_perform.mp (runs_attempt_ok.mp h₁)
  split at h₂
  case h_2 =>
    obtain ⟨rfl, rfl⟩ := runs_pure_ok.mp h₂
    simp
  case h_1 bytes =>
    obtain ⟨r, t₁, t₂, rfl, h₄, h₅⟩ := runs_bind_ok.mp h₂
    obtain rfl := runs_perform.mp (runs_attempt_ok.mp h₄)
    split at h₅
    case h_2 =>
      obtain ⟨rfl, rfl⟩ := runs_pure_ok.mp h₅
      simp
    case h_1 snapshot =>
      split at h₅
      case isFalse =>
        obtain ⟨rfl, rfl⟩ := runs_pure_ok.mp h₅
        simp
      case isTrue hr =>
        obtain ⟨rfl, rfl⟩ := runs_pure_ok.mp h₅
        refine ⟨rfl, rfl, fun _ => ⟨snapshot, ⟨by rw [hp, hr], bytes, ?_, ?_⟩, rfl, ?_⟩⟩
        · exact .head _
        · exact .tail _ (.head _)
        · intro hd
          simp only [Bool.and_eq_true] at hd
          exact hd.2

theorem Inspected.mono (h : Inspected t inUse clocks entry) (hu : t ⊆ u) :
    Inspected u inUse clocks entry :=
  { h with readable := fun hd => (h.readable hd).imp fun _ hs => ⟨hs.1.mono hu, hs.2⟩ }

theorem runs_inspectSnapshots (h : Runs (inspectSnapshots inUse clocks paths) t (.ok entries)) :
    (entries.map (·.path)).Sublist paths ∧ ∀ entry ∈ entries, Inspected t inUse clocks entry := by
  induction paths generalizing t entries
  case nil =>
    obtain ⟨rfl, rfl⟩ := runs_pure_ok.mp h
    simp
  case cons path paths hi =>
    obtain ⟨_, t, rfl, h₁⟩ := runs_perform_bind_ok.mp h
    split at h₁
    case h_1 =>
      have ⟨hl, he⟩ := hi h₁
      exact ⟨hl.cons _, fun entry hm => (he entry hm).mono (by simp)⟩
    case h_2 revision hp =>
      split at h₁
      case isTrue =>
        have ⟨hl, he⟩ := hi h₁
        exact ⟨hl.cons _, fun entry hm => (he entry hm).mono (by simp)⟩
      case isFalse hn =>
        obtain ⟨entry, t₁, t₂, rfl, h₂, h₃⟩ := runs_bind_ok.mp h₁
        obtain ⟨rest, h₄, rfl⟩ := runs_bind_pure_ok.mp h₃
        have ⟨hl, he⟩ := hi h₄
        have ⟨rfl, rfl, hd⟩ := runs_inspectSnapshot h₂ hp
        rw [forall_mem_cons, map_cons]
        refine ⟨hl.cons_cons _, ?_, fun entry hm => (he entry hm).mono (by simp)⟩
        exact ⟨hp, hn, fun h => (hd h).imp fun _ hs => ⟨hs.1.mono (by simp), hs.2⟩⟩

section Quiet

omit [SnapshotFormat] in
theorem isHead_of_snapshotRevision (h : path.snapshotRevision = some revision) :
    path.isHead = false := by
  cases path <;> first | rfl | cases h

omit [SnapshotFormat] in
theorem snapshotRevision_of_own (h : path.ownSnapshotRevision = some revision) :
    path.snapshotRevision = some revision := by
  cases path <;> first | cases h | skip
  case snapshot name =>
  simp only [RemotePath.ownSnapshotRevision] at h
  split at h
  case isTrue => cases h
  case isFalse hs =>
    have hf : RemotePath.filename name.toList = name.toList := by
      rw [RemotePath.filename, takeWhile_eq_self_iff.mpr, reverse_reverse]
      intro c hc
      rw [decide_eq_true_eq]
      rintro rfl
      exact hs (mem_reverse.mp hc)
    rw [RemotePath.snapshotRevision, hf, h]

attribute [local simp] isPassive.eq_6 isQuiet.eq_1 isQuiet.eq_3 ask

theorem quiet_inspectSnapshot (clocks : List SnapshotSyncClock) (hp : path.isHead = false)
    (revision : String) :
    (inspectSnapshot clocks path revision).Only fun c => c.isPassive ∧ c.isQuiet := by
  simp [inspectSnapshot, hp]
  intros
  split <;> simp
  intros
  split <;> simp

theorem quiet_inspectSnapshots (inUse : List String) (clocks : List SnapshotSyncClock)
    (paths : List RemotePath) :
    (inspectSnapshots inUse clocks paths).Only fun c => c.isPassive ∧ c.isQuiet := by
  induction paths
  case nil => simp [inspectSnapshots]
  case cons path paths hi =>
    simp [inspectSnapshots]
    intros
    split
    case h_1 => exact hi
    case h_2 hp => simp [hi, quiet_inspectSnapshot clocks (isHead_of_snapshotRevision hp)]

theorem quiet_capacityCandidates (inUse : List String) (clocks : List SnapshotSyncClock)
    (paths : List RemotePath) :
    (capacityCandidates inUse clocks paths).Only fun c => c.isPassive ∧ c.isQuiet := by
  induction paths
  case nil => simp [capacityCandidates]
  case cons path paths hi =>
    rw [capacityCandidates]
    split
    case h_1 => exact hi
    case h_2 hp =>
      simp [hi, isHead_of_snapshotRevision (snapshotRevision_of_own hp)]
      rintro _ _ (_ | bytes) _
      · exact hi
      simp
      rintro _ (_ | _) _ <;> simp [hi]

theorem quiet_currentRevision : currentRevision.Only fun c => c.isPassive ∧ c.isQuiet := by
  simp [currentRevision]
  refine ⟨rfl, ?_⟩
  rintro _ (_ | _) _ <;> simp
  rintro _ (_ | _) _ <;> simp

theorem only_countMissing (paths : List RemotePath) :
    (countMissing paths).Only fun c => ∃ path ∈ paths, c = .readIfExists path := by
  induction paths
  case nil => simp [countMissing]
  case cons path paths hi =>
    simp [countMissing]
    exact fun _ _ _ => hi.mono fun c ⟨path, h⟩ => .inr ⟨path, h⟩

end Quiet

-- No head, staged upload or shared pointer that was read refers to the revision.
structure Spares (t : CloudTrace) (revision : String) : Prop where
  committed : ∀ record, Record t record → ∀ head ∈ record.committed, head.revisionId ≠ revision
  pending : ∀ record, Record t record → record.pendingRevision ≠ some revision
  shared : ∀ bytes pointer, Got t (.decodePointer bytes) pointer → pointer.revisionId ≠ revision

theorem record_append : Record (s ++ t) record ↔ Record s record ∨ Record t record := by
  simp only [Record, got_append, or_and_right, exists_or]

omit [SnapshotFormat] in
theorem isHead_path (record : DeviceHead) : record.path.isHead := by
  rw [DeviceHead.path]
  split <;> rfl

namespace Spares

theorem append (hs : Spares s revision) (ht : Spares t revision) :
    Spares (s ++ t) revision where
  committed record h := (record_append.mp h).elim (hs.committed record) (ht.committed record)
  pending record h := (record_append.mp h).elim (hs.pending record) (ht.pending record)
  shared bytes pointer h := (got_append.mp h).elim (hs.shared bytes pointer) (ht.shared bytes pointer)

theorem of_quiet (h : ∀ e ∈ t, e.1.isQuiet) : Spares t revision := by
  have hr : ∀ record, ¬ Record t record := by
    rintro record ⟨bytes, hg, _⟩
    have := h _ hg
    simp [isQuiet, isHead_path] at this
  refine ⟨fun record h => absurd h (hr record), fun record h => absurd h (hr record), ?_⟩
  intro bytes pointer hg
  cases h _ hg

theorem of_protectedRevisions
    (h : Runs protectedRevisions t (.ok revisions)) (hr : revision ∉ revisions) :
    Spares t revision := by
  obtain ⟨records, h₁, rfl⟩ := runs_bind_pure_ok.mp h
  have ⟨paths, _, hc⟩ := runs_readRecords h₁
  have hm : ∀ record, Record t record → record ∈ records := by
    rintro record ⟨bytes, hg, hd⟩
    obtain ⟨found, hf, hd'⟩ := hc.complete _ bytes (isHead_path record) hg
    obtain rfl := Except.ok.inj (hd.symm.trans hd')
    exact hf
  simp only [mem_flatMap, mem_append, Option.mem_toList, not_exists, not_and,
    not_or] at hr
  refine ⟨?_, fun record h => (hr record (hm record h)).2, ?_⟩
  · rintro record h head hh rfl
    exact (hr record (hm record h)).1 (by simp [Option.mem_def.mp hh])
  · intro bytes pointer hg
    rcases only_readRecords.runs h₁ _ hg with h | ⟨_, _, h⟩ <;> cases h

theorem of_loadSyncPointer {pointer : Option RemoteSyncPointer}
    (h : Runs loadSyncPointer t (.ok pointer))
    (hr : revision ∉ (pointer.map (·.revisionId)).toList) : Spares t revision := by
  have hn : ∀ record, ¬ Record t record := by
    rintro record ⟨bytes, hg, _⟩
    rcases only_loadSyncPointer.runs h _ hg with h | ⟨_, h⟩
    · have := isHead_path record
      rw [readIfExists.inj h] at this
      cases this
    · cases h
  refine ⟨fun record h => absurd h (hn record), fun record h => absurd h (hn record), ?_⟩
  rintro bytes found hg rfl
  obtain ⟨bytes, t, rfl, h₁⟩ := runs_perform_bind_ok.mp h
  cases bytes
  case none =>
    obtain ⟨rfl, _⟩ := runs_pure.mp h₁
    simp [Got] at hg
  case some bytes =>
    obtain ⟨_, t, rfl, h₂⟩ := runs_perform_bind_ok.mp h₁
    obtain ⟨rfl, rfl⟩ := runs_pure_ok.mp h₂
    simp only [Got, mem_cons, not_mem_nil, or_false] at hg
    rcases hg with hg | hg
    · cases hg
    · cases hg
      simp at hr

end Spares

-- All heads and the shared pointer are looked up, in one order or the other.
def Looks (t : CloudTrace) (revisions : List String) (pointer : Option RemoteSyncPointer) : Prop :=
  ∃ t₁ t₂, (t = t₁ ++ t₂ ∨ t = t₂ ++ t₁) ∧
    Runs protectedRevisions t₁ (.ok revisions) ∧ Runs loadSyncPointer t₂ (.ok pointer)

-- Nothing that was read refers to the revision, and everything was looked up again just now.
structure Rechecked (t : CloudTrace) (revision : String) : Prop where
  spared : Spares t revision
  looks : ∃ u revisions pointer, u <:+ t ∧ Looks u revisions pointer

theorem Rechecked.after (h : Rechecked t revision) (hs : ∀ e ∈ s, e.1.isQuiet) :
    Rechecked (s ++ t) revision := by
  have ⟨u, revisions, pointer, hu, hl⟩ := h.looks
  exact ⟨(Spares.of_quiet hs).append h.spared, u, revisions, pointer,
    hu.trans (suffix_append ..), hl⟩

namespace Looks

variable {pointer : Option RemoteSyncPointer}

theorem spares (h : Looks t revisions pointer) (hr : revision ∉ revisions)
    (hp : revision ∉ (pointer.map (·.revisionId)).toList) : Spares t revision := by
  obtain ⟨t₁, t₂, rfl | rfl, h₁, h₂⟩ := h
  · exact (Spares.of_protectedRevisions h₁ hr).append (.of_loadSyncPointer h₂ hp)
  · exact (Spares.of_loadSyncPointer h₂ hp).append (.of_protectedRevisions h₁ hr)

theorem rechecked (h : Looks t revisions pointer)
    (hi : inUse ++ revisions ++ (pointer.map (·.revisionId)).toList ⊆ inUse')
    (hr : revision ∉ inUse') : revision ∉ inUse ∧ Rechecked t revision := by
  have hn : revision ∉ _ := fun h => hr (hi h)
  simp only [mem_append, not_or] at hn
  exact ⟨hn.1.1, h.spares hn.1.2 hn.2, t, revisions, pointer, suffix_refl t, h⟩

theorem later (h : Looks s revisions pointer)
    (hi : inUse ++ revisions ++ (pointer.map (·.revisionId)).toList ⊆ inUse')
    (hm : ∀ e ∈ m, e.1.isQuiet) (hr : revision ∉ inUse' ∧ Rechecked t revision) :
    revision ∉ inUse ∧ Rechecked (s ++ (m ++ t)) revision := by
  have ⟨hn, hs, _⟩ := h.rechecked hi hr.1
  have ⟨hl, u, revisions, pointer, hu, hc⟩ := hr.2.after hm
  exact ⟨hn, hs.append hl, u, revisions, pointer, hu.trans (suffix_append ..), hc⟩

end Looks

theorem asks_deletePlanned (h : Asks (deletePlanned inUse firstError paths) t (.delete path)) :
    path ∈ paths ∧ ∀ revision, path.snapshotRevision = some revision →
      revision ∉ inUse ∧ Rechecked t revision := by
  induction paths generalizing inUse firstError t
  case nil => exact absurd h not_asks_pure
  case cons next paths hi =>
    obtain ⟨revisions, t₁, _, rfl, h₁, h₂⟩ :=
      passive_protectedRevisions.asks_bind h Bool.false_ne_true
    obtain ⟨pointer, t₂, t₃, rfl, h₃, h₄⟩ :=
      passive_loadSyncPointer.asks_bind h₂ Bool.false_ne_true
    have hl : Looks (t₁ ++ t₂) revisions pointer := ⟨t₁, t₂, .inl rfl, h₁, h₃⟩
    rw [← append_assoc]
    dsimp only at h₄
    split at h₄
    case isTrue =>
      have ⟨hm, hr⟩ := hi h₄
      refine ⟨.tail _ hm, fun revision hp => ?_⟩
      exact hl.later (m := []) (Subset.refl _) (by simp) (hr revision hp)
    case isFalse hp =>
      rcases asks_bind.mp h₄ with h₅ | ⟨r, t₄, t₅, rfl, h₅, h₆⟩
      · obtain ⟨rfl, h₆⟩ := asks_perform.mp (asks_attempt.mp h₅)
        obtain rfl := delete.inj h₆
        refine ⟨.head _, fun revision hr => ?_⟩
        rw [append_nil]
        exact hl.rechecked (Subset.refl _) (by simpa [hr] using hp)
      · have ⟨r, ho, h₇⟩ := runs_attempt.mp h₅
        obtain rfl := runs_perform.mp h₇
        have ⟨e, h₈⟩ : ∃ e, Asks (deletePlanned (inUse ++ revisions ++
            (pointer.map (·.revisionId)).toList) e paths) t₅ (.delete path) := by
          split at h₆ <;> exact ⟨_, h₆⟩
        have ⟨hm, hr⟩ := hi h₈
        refine ⟨.tail _ hm, fun revision hp => ?_⟩
        exact hl.later (Subset.refl _) (by simp [isQuiet]) (hr revision hp)

theorem asks_freeCapacity (h : Asks (freeCapacity needed freed inUse candidates) t (.delete path))
    (hc : ∀ candidate ∈ candidates, candidate.path.isHead = false) :
    ∃ candidate ∈ candidates, candidate.path = path ∧ candidate.revision ∉ inUse ∧
      Rechecked t candidate.revision := by
  induction candidates generalizing inUse freed t
  case nil => exact absurd h not_asks_fail
  case cons next candidates hi =>
    obtain ⟨pointer, t₁, _, rfl, h₁, h₂⟩ :=
      passive_loadSyncPointer.asks_bind h Bool.false_ne_true
    obtain ⟨revisions, t₂, t₃, rfl, h₃, h₄⟩ :=
      passive_protectedRevisions.asks_bind h₂ Bool.false_ne_true
    have hl : Looks (t₁ ++ t₂) revisions pointer := ⟨t₂, t₁, .inr rfl, h₃, h₁⟩
    have hs : inUse ++ revisions ++ (pointer.map (·.revisionId)).toList ⊆
        inUse ++ (pointer.map (·.revisionId)).toList ++ revisions := by
      intro revision hr
      simp only [mem_append] at hr ⊢
      tauto
    rw [← append_assoc]
    dsimp only at h₄
    split at h₄
    case isTrue =>
      have ⟨candidate, hm, hp, hr⟩ := hi h₄ fun c hm => hc c (.tail _ hm)
      exact ⟨candidate, .tail _ hm, hp, hl.later (m := []) hs (by simp) hr⟩
    case isFalse hn =>
      rcases asks_perform_bind.mp h₄ with ⟨rfl, h₅⟩ | ⟨_, t₄, rfl, h₅⟩
      · rw [append_nil]
        exact ⟨next, .head _, (delete.inj h₅).symm, hl.rechecked hs hn⟩
      · obtain ⟨left, t₅, rfl, h₆⟩ := asks_perform_bind_ne h₅ nofun
        generalize (if left.isNone = true then freed + 1 else freed) = freed at h₆
        split at h₆
        case isTrue => exact absurd h₆ not_asks_pure
        have ⟨candidate, hm, hp, hr⟩ := hi h₆ fun c hm => hc c (.tail _ hm)
        refine ⟨candidate, .tail _ hm, hp, ?_⟩
        refine hl.later (m := [⟨.delete next.path, .ok ()⟩, ⟨.readIfExists next.path, .ok left⟩])
          hs ?_ hr
        simp [isQuiet, hc next]

omit [SnapshotFormat] in
theorem mem_planSnapshotGc {latest : Option String}
    (h : path ∈ planSnapshotGc snapshots latest now keep grace) :
    ∃ entry ∈ snapshots, entry.path = path ∧ entry.deletable ∧ latest ≠ some entry.revisionId ∧
      now - entry.createdAtMs > grace ∧ ∃ recent : List SnapshotGcEntry,
        recent.Subperm snapshots ∧ recent.length = keep ∧ ∀ other ∈ recent,
          entry.createdAtMs ≤ other.createdAtMs ∧ other.revisionId ≠ entry.revisionId := by
  simp only [planSnapshotGc, mem_map, mem_filter, mem_append, Option.mem_toList,
    decide_eq_true_eq, not_or, not_exists, not_and] at h
  obtain ⟨entry, ⟨⟨⟨hm, hd⟩, hl, hn⟩, hg⟩, rfl⟩ := h
  set sorted := snapshots.insertionSort (·.createdAtMs ≤ ·.createdAtMs) with hs
  have hp : sorted.Perm snapshots := perm_insertionSort ..
  have ho : sorted.reverse.Pairwise fun a b => b.createdAtMs ≤ a.createdAtMs :=
    pairwise_reverse.mpr (pairwise_insertionSort ..)
  have he : entry ∈ sorted.reverse := mem_reverse.mpr hm
  rw [← take_append_drop keep sorted.reverse] at ho he
  have hk : entry ∈ sorted.reverse.drop keep :=
    (mem_append.mp he).resolve_left fun h => hn entry h rfl
  refine ⟨entry, hp.mem_iff.mp hm, rfl, hd, hl, hg, sorted.reverse.take keep, ?_, ?_, ?_⟩
  · exact (take_sublist ..).subperm.trans ((reverse_perm _).trans hp).subperm
  · have := length_pos_of_mem hk
    rw [length_drop] at this
    rw [length_take]
    omega
  · intro other ht
    exact ⟨(pairwise_append.mp ho).2.2 other ht entry hk, hn other ht⟩

-- What a candidate says of the file that it stands for.
structure Candidate (t : CloudTrace) (inUse : List String) (clocks : List SnapshotSyncClock)
    (candidate : CapacityCandidate) : Prop where
  unused : candidate.revision ∉ inUse
  readable : ∃ snapshot, Stored t candidate.path snapshot ∧
    snapshot.revisionId = candidate.revision ∧ snapshot.causallyCollectable clocks

theorem Candidate.mono (h : Candidate t inUse clocks candidate) (hu : t ⊆ u) :
    Candidate u inUse clocks candidate :=
  ⟨h.unused, h.readable.imp fun _ hs => ⟨hs.1.mono hu, hs.2⟩⟩

theorem runs_capacityCandidates
    (h : Runs (capacityCandidates inUse clocks paths) t (.ok candidates)) :
    ∀ candidate ∈ candidates, Candidate t inUse clocks candidate := by
  induction paths generalizing t candidates
  case nil =>
    obtain ⟨rfl, rfl⟩ := runs_pure_ok.mp h
    simp
  case cons path paths hi =>
    have hs {t u cs} (h : Runs (capacityCandidates inUse clocks paths) t (.ok cs)) (hu : t ⊆ u) :
        ∀ candidate ∈ cs, Candidate u inUse clocks candidate :=
      fun candidate hm => (hi h candidate hm).mono hu
    rw [capacityCandidates] at h
    split at h
    case h_1 => exact hi h
    case h_2 revision hp =>
      split at h
      case isTrue => exact hi h
      case isFalse hn =>
        obtain ⟨bytes, t, rfl, h₁⟩ := runs_perform_bind_ok.mp h
        cases bytes
        case none => exact hs h₁ (by simp)
        case some bytes =>
          obtain ⟨r, _, t₂, rfl, h₂, h₃⟩ := runs_bind_ok.mp h₁
          obtain rfl := runs_perform.mp (runs_attempt_ok.mp h₂)
          cases r
          case error => exact hs h₃ (by simp)
          case ok snapshot =>
            obtain ⟨rest, t₃, t₄, rfl, h₅, h₆⟩ := runs_bind_ok.mp h₃
            split at h₆
            case isFalse =>
              obtain ⟨rfl, rfl⟩ := runs_pure_ok.mp h₆
              exact hs h₅ (by simp)
            case isTrue hr =>
              obtain ⟨rfl, rfl⟩ := runs_pure_ok.mp h₆
              rw [forall_mem_cons]
              refine ⟨⟨hn, snapshot, ⟨?_, bytes, .head _, .tail _ (.head _)⟩, hr.1, hr.2.2.2⟩,
                hs h₅ (by simp)⟩
              rw [hr.1, snapshotRevision_of_own hp]

-- What the collectors have seen of a file before they delete it: its snapshot is an ancestor of a
-- head that was authenticated, and neither the first look at the heads nor any later one has shown
-- a reference to it. Heads that only come to light while they are authenticated do not count.
structure Collected (t : CloudTrace) (latest : Option RemoteSyncPointer) (path : RemotePath)
    (snapshot : RawPortableSnapshot) : Prop where
  stored : Stored t path snapshot
  ancestor : ∀ clock, snapshot.syncClock = some clock →
    ∃ top, Authenticated t latest top ∧ top.strictlyDominates clock
  notLatest : ∀ pointer ∈ latest, pointer.revisionId ≠ snapshot.revisionId
  unreferenced : ∃ t₀ t₁ t₂ t₃ revisions clocks, t = t₀ ++ (t₁ ++ (t₂ ++ t₃)) ∧
    (∀ e ∈ t₀, ∀ dir, e.1 ≠ .listFiles dir) ∧ Runs protectedRevisions t₁ (.ok revisions) ∧
    Runs (authenticatedCommitClocks latest) t₂ (.ok clocks) ∧
    Spares t₁ snapshot.revisionId ∧ Rechecked t₃ snapshot.revisionId

-- The snapshot is older than the grace period, and there are enough newer ones beside it.
structure Outdated (t : CloudTrace) (snapshot : RawPortableSnapshot) : Prop where
  aged : ∃ now, Got t .currentTime now ∧ now - snapshot.createdAtMs > snapshotGcGracePeriodMs
  recent : ∃ paths, ∃ recent : List RemotePath, Got t (.listFiles .snapshots) paths ∧ recent.Subperm paths ∧
    recent.length = snapshotKeepRecent ∧ ∀ other ∈ recent,
      (∃ revision, other.snapshotRevision = some revision ∧ revision ≠ snapshot.revisionId) ∧
      (snapshot.createdAtMs = 0 ∨
        ∃ newer, Stored t other newer ∧ snapshot.createdAtMs ≤ newer.createdAtMs)

theorem Collected.of_runs {s t₁ t₂ t₃ : CloudTrace} (h₀ : ∀ e ∈ s, ∀ dir, e.1 ≠ .listFiles dir)
    (h₁ : Runs protectedRevisions t₁ (.ok revisions))
    (h₂ : Runs (authenticatedCommitClocks latest) t₂ (.ok clocks)) (hs : Stored t₃ path snapshot)
    (hc : snapshot.causallyCollectable clocks) (hr : snapshot.revisionId ∉ revisions)
    (hl : snapshot.revisionId ∉ (latest.map (·.revisionId)).toList)
    (h₃ : Rechecked t₃ snapshot.revisionId) :
    Collected (s ++ (t₁ ++ (t₂ ++ t₃))) latest path snapshot where
  stored := hs.mono fun e he => by simp [he]
  ancestor clock he := by
    simp only [RawPortableSnapshot.causallyCollectable, he, Option.all_some, any_eq_true] at hc
    have ⟨top, ht, hd⟩ := hc
    exact ⟨top, (runs_authenticatedCommitClocks h₂ top ht).mono fun e he => by simp [he], hd⟩
  notLatest pointer hp he := hl (by simp [Option.mem_def.mp hp, he])
  unreferenced := ⟨s, t₁, t₂, t₃, revisions, clocks, rfl, h₀, h₁, h₂,
    .of_protectedRevisions h₁ hr, h₃⟩

theorem Inspected.newer (h : Inspected t inUse clocks entry) (hc : created ≤ entry.createdAtMs) :
    created = 0 ∨ ∃ newer, Stored t entry.path newer ∧ created ≤ newer.createdAtMs := by
  by_cases hz : entry.createdAtMs = 0
  · exact .inl (Nat.le_zero.mp (hz ▸ hc))
  · obtain ⟨newer, hs, he, _⟩ := h.readable (.inr hz)
    exact .inr ⟨newer, hs, he ▸ hc⟩

theorem asks_cleanupSyncSnapshots
    (h : Asks (cleanupSyncSnapshots latest) t (.delete path)) :
    ∃ snapshot, Collected t latest path snapshot ∧ Outdated t snapshot := by
  obtain ⟨_, t, rfl, h₁⟩ := asks_perform_bind_ne h nofun
  obtain ⟨revisions, t₁, _, rfl, h₂, h₃⟩ :=
    passive_protectedRevisions.asks_bind h₁ Bool.false_ne_true
  obtain ⟨clocks, t₂, _, rfl, h₄, h₅⟩ :=
    (passive_authenticatedCommitClocks latest).asks_bind h₃ Bool.false_ne_true
  obtain ⟨paths, _, rfl, h₆⟩ := asks_perform_bind_ne h₅ nofun
  obtain ⟨entries, t₃, _, rfl, h₇, h₈⟩ :=
    (quiet_inspectSnapshots _ clocks paths).asks_bind h₆ fun h => Bool.false_ne_true h.1
  obtain ⟨now, t₄, rfl, h₉⟩ := asks_perform_bind_ne h₈ nofun
  rcases asks_bind.mp h₉ with h₁₀ | ⟨firstError, _, _, rfl, _, h₁₁⟩
  case inr =>
    obtain ⟨_, _, rfl, h₁₂⟩ := asks_perform_bind_ne h₁₁ nofun
    cases firstError <;> cases h₁₂
  case inl =>
    obtain ⟨hm, hr⟩ := asks_deletePlanned h₁₀
    obtain ⟨hl, he⟩ := runs_inspectSnapshots h₇
    obtain ⟨entry, hi, rfl, hd, _, hg, recent, ⟨kept, hp, hs⟩, hk, ho⟩ := mem_planSnapshotGc hm
    obtain ⟨snapshot, hsn, hc, ha⟩ := (he entry hi).readable (.inl hd)
    obtain ⟨hn, hre⟩ := hr _ hsn.1
    simp only [mem_append, not_or] at hn
    have hq : ∀ e ∈ ⟨.listFiles .snapshots, .ok paths⟩ :: t₃ ++ [⟨.currentTime, .ok now⟩],
        e.1.isQuiet := by
      simp only [cons_append, forall_mem_cons, forall_mem_append]
      exact ⟨rfl, fun e he => ((quiet_inspectSnapshots _ clocks paths).runs h₇ e he).2, rfl, by simp⟩
    refine ⟨snapshot, .of_runs (s := [_]) ?_ h₂ h₄ (hsn.mono ?_) (ha hd) hn.1 hn.2 ?_, ?_, ?_⟩
    · simp
    · simp
    · simpa using hre.after hq
    · exact ⟨now, by simp [Got], hc ▸ hg⟩
    · refine ⟨paths, recent.map (·.path), by simp [Got], ?_, by simpa using hk, ?_⟩
      · exact Subperm.trans ⟨_, hp.map _, hs.map _⟩ hl.subperm
      · rw [forall_mem_map]
        intro other hm
        have hio := he other (hs.subset (hp.mem_iff.mpr hm))
        obtain ⟨hn, hr⟩ := ho other hm
        have her := Option.some.inj ((he entry hi).revision.symm.trans hsn.1)
        exact ⟨⟨_, hio.revision, her ▸ hr⟩, (hio.mono fun e he => by simp [he]).newer (hc ▸ hn)⟩

theorem asks_reserveSnapshotCapacity
    (h : Asks (reserveSnapshotCapacity options expected target) t (.delete path)) :
    ∃ snapshot, Collected t expected path snapshot ∧ snapshot.revisionId ≠ target := by
  obtain ⟨capacity, t, rfl, h₁⟩ := asks_perform_bind_ne h nofun
  cases capacity
  case none => exact absurd h₁ not_asks_pure
  case some capacity =>
    obtain ⟨additional, t₀, _, rfl, h₂, h₃⟩ := (only_countMissing _).asks_bind h₁ (by simp)
    dsimp only at h₃
    split at h₃
    case isTrue => exact absurd h₃ not_asks_pure
    obtain ⟨revisions, t₁, _, rfl, h₄, h₅⟩ :=
      passive_protectedRevisions.asks_bind h₃ Bool.false_ne_true
    obtain ⟨clocks, t₂, _, rfl, h₆, h₇⟩ :=
      (passive_authenticatedCommitClocks expected).asks_bind h₅ Bool.false_ne_true
    obtain ⟨current, t₃, _, rfl, h₈, h₉⟩ :=
      quiet_currentRevision.asks_bind h₇ fun h => Bool.false_ne_true h.1
    obtain ⟨paths, _, rfl, h₁₀⟩ := asks_perform_bind_ne h₉ nofun
    obtain ⟨candidates, t₄, t₅, rfl, h₁₁, h₁₂⟩ :=
      (quiet_capacityCandidates _ clocks paths).asks_bind h₁₀ fun h => Bool.false_ne_true h.1
    have hc := runs_capacityCandidates h₁₁
    have hh : ∀ c ∈ candidates.insertionSort (CapacityCandidate.le · ·), c.path.isHead = false := by
      intro c hm
      have ⟨snapshot, hs, _⟩ := (hc c ((mem_insertionSort _).mp hm)).readable
      exact isHead_of_snapshotRevision hs.1
    obtain ⟨candidate, hm, rfl, _, hre⟩ := asks_freeCapacity h₁₂ hh
    have ⟨hn, snapshot, hs, hr, ha⟩ := hc candidate ((mem_insertionSort _).mp hm)
    rw [← hr] at hn hre
    simp only [mem_append, mem_cons, not_or] at hn
    have hq : ∀ e ∈ t₃ ++ ⟨.listFiles .snapshots, .ok paths⟩ :: t₄, e.1.isQuiet := by
      simp only [forall_mem_cons, forall_mem_append]
      exact ⟨fun e he => (quiet_currentRevision.runs h₈ e he).2, rfl,
        fun e he => ((quiet_capacityCandidates _ clocks paths).runs h₁₁ e he).2⟩
    refine ⟨snapshot, .of_runs (s := _ :: t₀) ?_ h₄ h₆ (hs.mono ?_) ha hn.1.1 hn.1.2.2 ?_, hn.1.2.1⟩
    · rw [forall_mem_cons]
      refine ⟨nofun, fun e he dir hd => ?_⟩
      have ⟨_, _, hp⟩ := (only_countMissing _).runs h₂ e he
      cases hp.symm.trans hd
    · intro e he
      simp [he]
    · simpa using hre.after hq

theorem collectors_spare_live_history {path : RemotePath} :
    (∀ latest, Asks (cleanupSyncSnapshots latest) t (.delete path) →
      ∃ snapshot, Collected t latest path snapshot ∧ Outdated t snapshot) ∧
    (∀ options expected target,
      Asks (reserveSnapshotCapacity options expected target) t (.delete path) →
      ∃ snapshot, Collected t expected path snapshot ∧ snapshot.revisionId ≠ target) :=
  ⟨fun _ => asks_cleanupSyncSnapshots, fun _ _ _ => asks_reserveSnapshotCapacity⟩

end CloudSync

end

-- A device that has published one snapshot after the other, and what its files answer.
namespace SnapshotFormat.Sample

open CloudSync

local instance : SnapshotFormat := sample

def snapshot (revision : String) (createdAtMs count : Nat) : RawPortableSnapshot :=
  { RawPortableSnapshot.sync revision "a" "" createdAtMs (1 : Nat) with
    schemaVersion := RawPortableSnapshot.fixedSchemaVersion
    payloadHash := sampleHash 1
    syncClock := some ⟨.ofList [("a", count)], none⟩ }

@[simp]
theorem snapshot_revisionId (revision : String) (createdAtMs count : Nat) :
    (snapshot revision createdAtMs count).revisionId = revision := rfl

def bytes (s : RawPortableSnapshot) : Bytes :=
  SampleBytes.snapshot s.toPortableSnapshotMeta s.entities

def head : Bytes :=
  SnapshotFormat.encodeHead ⟨"a", some (.ofSnapshot (snapshot "new" 9 9)), none⟩

def heads : CloudTrace :=
  [⟨.listFiles .heads, .ok [.head "a"]⟩, ⟨.readIfExists (.head "a"), .ok (some head)⟩]

def inspected (s : RawPortableSnapshot) : CloudTrace :=
  [⟨.readIfExists (.snapshot s.revisionId), .ok (some (bytes s))⟩, ⟨.decodeSnapshot (bytes s), .ok s⟩]

-- A storage that is full frees the only place it can, whatever the age of the snapshot there.
def reserving : CloudTrace :=
  [⟨.fileCapacity, .ok (some ⟨3, 3⟩)⟩, ⟨.readIfExists (.snapshot "next"), .ok none⟩,
    ⟨.readIfExists .latest, .ok none⟩, ⟨.readIfExists .current, .ok none⟩,
    ⟨.readIfExists (.head "a"), .ok (some head)⟩, ⟨.readIfExists (.pendingHead "a"), .ok none⟩] ++
  heads ++ (heads ++ inspected (snapshot "new" 9 9)) ++
  [⟨.readIfExists .current, .ok none⟩,
    ⟨.listFiles .snapshots, .ok [.snapshot "old", .snapshot "new"]⟩] ++
  inspected (snapshot "old" 9 8) ++ ⟨.readIfExists .latest, .ok none⟩ :: heads

theorem asks_reserving : Asks (reserveSnapshotCapacity ⟨true, "a", none⟩ none "next") reserving
    (.delete (.snapshot "old")) := by
  repeat first | exact .here | refine .there ?_

def cleaning : CloudTrace :=
  ⟨.checkpoint, .ok ()⟩ :: heads ++ (heads ++ inspected (snapshot "new" 9 9)) ++
  ⟨.listFiles .snapshots, .ok (.snapshot "old" :: ["1", "2", "3", "4", "5"].map .snapshot)⟩ ::
  (⟨.checkpoint, .ok ()⟩ :: inspected (snapshot "old" 1 1)) ++
  (["1", "2", "3", "4", "5"].flatMap fun revision =>
    ⟨.checkpoint, .ok ()⟩ :: inspected (snapshot revision 2 2)) ++
  ⟨.currentTime, .ok (snapshotGcGracePeriodMs + 2)⟩ :: heads ++ [⟨.readIfExists .latest, .ok none⟩]

theorem asks_cleaning : Asks (cleanupSyncSnapshots none) cleaning (.delete (.snapshot "old")) := by
  repeat first | exact .here | refine .there ?_

theorem collectors_spare_live_history_sample :
    (∃ old, Collected cleaning none (.snapshot "old") old ∧ Outdated cleaning old) ∧
    ∃ old, Collected reserving none (.snapshot "old") old ∧ old.revisionId ≠ "next" :=
  ⟨collectors_spare_live_history.1 _ asks_cleaning,
    collectors_spare_live_history.2 _ _ _ asks_reserving⟩

-- Making room spares neither recent snapshots nor those of the last day: here the storage lists two
-- snapshots of the same age, and one of them is deleted.
theorem reserving_deletes_recent_snapshot :
    Asks (reserveSnapshotCapacity ⟨true, "a", none⟩ none "next") reserving
      (.delete (.snapshot "old")) ∧
    (∀ paths, Got reserving (.listFiles .snapshots) paths → paths.length < snapshotKeepRecent) ∧
    Stored reserving (.snapshot "old") (snapshot "old" 9 8) ∧
    (snapshot "old" 9 8).createdAtMs = (snapshot "new" 9 9).createdAtMs := by
  refine ⟨asks_reserving, fun paths h => ?_, ⟨by decide, bytes (snapshot "old" 9 8), ?_, ?_⟩, rfl⟩
  · simp [Got, reserving, heads, inspected] at h
    simp [h, snapshotKeepRecent]
  · simp [Got, reserving, inspected]
  · simp [Got, reserving, inspected]

end SnapshotFormat.Sample

end NyaTerm

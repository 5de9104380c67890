import NyaTerm.Cloud.Theorems.Resolve
import NyaTerm.Cloud.Theorems.Store
import NyaTerm.Cloud.World
import NyaTerm.Lib.VectorClock

open Program

namespace NyaTerm

open Function

open CloudSync

-- How often each device has contributed.
def RemoteSyncPointer.counts (pointer : RemoteSyncPointer) : String → Nat :=
  (pointer.syncClock.getD .empty).count

variable [SnapshotFormat]
variable {t : CloudTrace}

namespace Fleet

-- The head that a device has published last.
def current (w : Fleet) (device : String) : Option RemoteSyncPointer :=
  w.published.find? (·.deviceId = device)

-- The content of the device was found to be that of the revision.
def Matched (w : Fleet) (device revision : String) : Prop :=
  ∃ head built snapshot content, head.revisionId = revision ∧
    Got (w.log device) .buildSnapshot built ∧ built.Shows content ∧
    Fetched (w.log device) head snapshot ∧ snapshot.syncContentHash = .ok content

-- The device has applied the revision, it has made it, or its own content was the same.
inductive Knows (w : Fleet) (device revision : String) : Prop
  | applied (h : revision ∈ w.applied device)
  | authored {head} (hp : head ∈ w.published) (hd : head.deviceId = device)
    (hr : head.revisionId = revision)
  | matched (h : w.Matched device revision)

-- What a device remembers is something that it knows.
structure Baseline (w : Fleet) (device : String) (state : CloudSyncState) : Prop where
  clock : ∀ clock ∈ state.lastSyncedClock, ∃ head ∈ w.published, head.syncClock = some clock ∧
    w.Knows device head.revisionId
  revision : ∀ revision ∈ state.lastAppliedRemoteRevision, w.Knows device revision

def Issued (w : Fleet) (device revision : String) : Prop :=
  w.issued revision = some device ∧ revision ∉ w.legacy

-- A pointer is a head that was published, or that of an older client.
def Known (w : Fleet) (pointer : RemoteSyncPointer) : Prop :=
  pointer ∈ w.published ∨ (pointer.syncClock = none ∧ pointer.revisionId ∈ w.legacy)

def Receipted (w : Fleet) (device : String) (pointer : RemoteSyncPointer)
    (receipt : ValidatedSnapshot) : Prop :=
  ∃ snapshot, Fetched (w.log device) pointer snapshot ∧
    snapshot.syncContentHash = .ok receipt.contentHash

-- The history never shrinks.
structure Grows (w w' : Fleet) : Prop where
  published : w.published <:+ w'.published
  applied : ∀ device, w.applied device ⊆ w'.applied device
  log : ∀ device, w.log device ⊆ w'.log device
  issued : ∀ revision device, w.issued revision = some device → w'.issued revision = some device
  legacy : w'.legacy = w.legacy

section Grows

variable {w : Fleet}

theorem Grows.trans (h : w.Grows w') (h' : w'.Grows w'') : w.Grows w'' where
  published := h.published.trans h'.published
  applied device := List.Subset.trans (h.applied device) (h'.applied device)
  log device := List.Subset.trans (h.log device) (h'.log device)
  issued _ _ hi := h'.issued _ _ (h.issued _ _ hi)
  legacy := h'.legacy.trans h.legacy

theorem Matched.mono (h : w.Matched device revision) (hw : w.Grows w') :
    w'.Matched device revision := by
  have ⟨head, built, snapshot, content, hr, hb, hs, hf, hc⟩ := h
  exact ⟨head, built, snapshot, content, hr, hb.mono (hw.log _), hs, hf.mono (hw.log _), hc⟩

theorem Knows.mono (h : w.Knows device revision) (hw : w.Grows w') : w'.Knows device revision := by
  cases h
  case applied h => exact .applied (hw.applied _ h)
  case authored hp hd hr => exact .authored (hw.published.subset hp) hd hr
  case matched h => exact .matched (h.mono hw)

theorem Baseline.mono (h : w.Baseline device state) (hw : w.Grows w') :
    w'.Baseline device state where
  clock clock hc := (h.clock clock hc).imp fun _ hh =>
    ⟨hw.published.subset hh.1, hh.2.1, hh.2.2.mono hw⟩
  revision revision hr := (h.revision revision hr).mono hw

theorem Issued.mono (h : w.Issued device revision) (hw : w.Grows w') : w'.Issued device revision :=
  ⟨hw.issued _ _ h.1, hw.legacy ▸ h.2⟩

theorem Known.mono (h : w.Known pointer) (hw : w.Grows w') : w'.Known pointer :=
  h.imp (hw.published.subset ·) fun h => ⟨h.1, hw.legacy ▸ h.2⟩

theorem Receipted.mono (h : w.Receipted device pointer receipt) (hw : w.Grows w') :
    w'.Receipted device pointer receipt :=
  h.imp fun _ hs => ⟨hs.1.mono (hw.log _), hs.2⟩

theorem grows_record (w : Fleet) (device : String) (event : Event CloudSyncError Answer) :
    w.Grows (w.record device event) where
  published := List.suffix_rfl
  applied _ := List.Subset.refl _
  log b := by
    by_cases hb : b = device
    · subst hb
      simp [record]
    · simp [record, hb]
  issued _ _ h := h
  legacy := rfl

theorem grows_issue (h : w.Fresh revision) : w.Grows (w.issue device revision) where
  published := List.suffix_rfl
  applied _ := List.Subset.refl _
  log _ := List.Subset.refl _
  issued r d hr := by
    have hn : r ≠ revision := by
      rintro rfl
      simp [h.1] at hr
    simpa [issue, hn] using hr
  legacy := rfl

theorem grows_put (w : Fleet) (path : RemotePath) (bytes : Bytes) : w.Grows (w.put path bytes) where
  published := by
    cases path
    case head => exact List.suffix_append ..
    all_goals exact List.suffix_rfl
  applied _ := List.Subset.refl _
  log _ := List.Subset.refl _
  issued _ _ h := h
  legacy := rfl

theorem grows_apply (w : Fleet) (device revision : String) (store : LocalStore) :
    w.Grows (w.apply device revision store) where
  published := List.suffix_rfl
  applied b := by
    by_cases hb : b = device
    · subst hb
      simp [apply]
    · simp [apply, hb]
  log _ := List.Subset.refl _
  issued _ _ h := h
  legacy := rfl

variable [SnapshotCodec]

theorem Effects.grows {x : Except CloudSyncError (Answer c)} (h : w.Effects device c x w') :
    w.Grows w' := by
  cases h
  case write => exact grows_put ..
  case build hf | newRevision hf => exact grows_issue hf
  case apply => exact grows_apply ..
  all_goals exact ⟨List.suffix_rfl, fun _ _ h => h, fun _ _ h => h, fun _ _ h => h, rfl⟩

end Grows

section Sound

variable [SnapshotCodec]

-- What is known of a file because of where it is.
structure FileSays (w : Fleet) (path : RemotePath) (bytes : Bytes) : Prop where
  head : path.isHead → ∀ record, SnapshotFormat.decodeHead bytes = some record →
    ∀ head ∈ record.committed, head ∈ w.published
  latest : path = .latest → ∀ pointer, SnapshotCodec.decodePointer bytes = some pointer →
    w.Known pointer

-- What an answer tells about the fleet.
def Says (w : Fleet) (device : String) : Event CloudSyncError Answer → Prop
  | ⟨.readIfExists path, .ok (some bytes)⟩ => w.FileSays path bytes
  | ⟨.write path bytes, .ok ()⟩ =>
    w.FileSays path bytes ∧ ∀ owner, path = .head owner → owner = device
  | ⟨.decodeSnapshot bytes, .ok snapshot⟩ => SnapshotCodec.decodeSnapshot bytes = some snapshot
  | ⟨.encodePointer pointer, .ok bytes⟩ => SnapshotCodec.decodePointer bytes = some pointer
  | ⟨.decodePointer bytes, .ok pointer⟩ => SnapshotCodec.decodePointer bytes = some pointer
  | ⟨.buildSnapshot, .ok snapshot⟩ =>
    snapshot.deviceId = device ∧ w.Issued device snapshot.revisionId
  | ⟨.newRevision, .ok revision⟩ => w.Issued device revision
  | ⟨.receipt pointer, .ok (some receipt)⟩ => w.Receipted device pointer receipt
  | _ => True

structure Sound (w : Fleet) : Prop where
  history : VectorClock.History (·.deviceId) (·.counts) w.published
  clocked : ∀ head ∈ w.published, head.syncClock.isSome
  revisions : (w.published.map (·.revisionId)).Nodup
  issued : ∀ head ∈ w.published, w.Issued head.deviceId head.revisionId
  heads : ∀ device, w.files (.head device) =
    (w.current device).map fun head => SnapshotFormat.encodeHead ⟨device, some head, none⟩
  files : ∀ path bytes, w.files path = some bytes → w.FileSays path bytes
  logs : ∀ device, ∀ event ∈ w.log device, w.Says device event
  receipts : ∀ device pointer receipt, (pointer, receipt) ∈ w.receipts device →
    w.Receipted device pointer receipt
  baselines : ∀ device, w.Baseline device (w.stores device).state

-- Looking at the heads has shown this one or a later one of its device.
structure Seen (t : CloudTrace) (head : RemoteSyncPointer) : Prop where
  listed : ∀ paths, Got t (.listFiles .heads) paths → .head head.deviceId ∈ paths
  read : ∀ found, Got t (.readIfExists (.head head.deviceId)) found → ∃ later,
    found = some (SnapshotFormat.encodeHead ⟨head.deviceId, some later, none⟩) ∧
    head.counts ≤ later.counts

-- An operation remembers what its device knew when it began, and it can only find heads that go on
-- from there. As long as it has not published anything, its own head is what it has read, and none
-- of its revisions is in use.
structure Attends (w : Fleet) (device : String) (call : CloudCall) (t : CloudTrace) : Prop where
  owner : call.options.deviceId = device
  logged : t ⊆ w.log device
  baseline : w.Baseline device call.state
  seen : ∀ head ∈ w.published, call.state.lastSyncedClock = head.syncClock → Seen t head
  listed : Unwritten t → ∀ paths, Got t (.listFiles .heads) paths →
    (w.files (.head device)).isSome → .head device ∈ paths
  read : Unwritten t → ∀ found, Got t (.readIfExists (.head device)) found →
    found = w.files (.head device)
  unused : Unwritten t → ∀ revision,
    (Got t .newRevision revision ∨ ∃ built, Got t .buildSnapshot built ∧
      built.revisionId = revision) → ∀ head ∈ w.published, head.revisionId ≠ revision

variable {w : Fleet}

theorem FileSays.mono {bytes : Bytes} (h : w.FileSays path bytes)
    (hw : w.Grows w') : w'.FileSays path bytes where
  head hp record hd head hh := hw.published.subset (h.head hp record hd head hh)
  latest hp pointer hd := (h.latest hp pointer hd).mono hw

theorem Says.mono (h : w.Says device event) (hw : w.Grows w') : w'.Says device event := by
  unfold Says at h ⊢
  split
  case h_1 => exact h.mono hw
  case h_2 => exact ⟨h.1.mono hw, h.2⟩
  case h_6 => exact ⟨h.1, h.2.mono hw⟩
  case h_7 | h_8 => exact h.mono hw
  case h_9 => trivial
  all_goals exact h

section Effects

variable {c : CloudRequest}

theorem Effects.tells (hw : w.Sound) (h : w.Effects device c x w')
    (hs : ∀ path bytes, w'.files path = some bytes → w'.FileSays path bytes)
    (ho : ∀ owner bytes, c = .write (.head owner) bytes → owner = device) :
    w'.Says device ⟨c, x⟩ := by
  cases h
  case failed | other hc => cases c <;> trivial
  case read path =>
    cases hp : w.files path
    case none => trivial
    case some bytes => exact hw.files path bytes hp
  case write path bytes x =>
    cases x
    case error => trivial
    refine ⟨hs path bytes (update_self ..), ?_⟩
    rintro owner rfl
    exact ho owner bytes rfl
  case build hb hf =>
    have ⟨_, _, _, hb⟩ := hb
    exact ⟨(RawPortableSnapshot.projectFixed_eq_ok hb).2.2, update_self .., hf.2⟩
  case newRevision hf => exact ⟨update_self .., hf.2⟩
  case receipt found hr =>
    cases found
    case none => trivial
    case some receipt => exact hw.receipts _ _ _ (hr receipt rfl)
  all_goals trivial

section

variable (hw : w.Sound) (ht : t ⊆ w.log device)
include hw ht

theorem published_of_publishes
    (h : Publishes t head) : head ∈ w.published ∧ head.deviceId = device := by
  have hs : w.FileSays .. ∧ _ := hw.logs device _ (ht h)
  exact ⟨hs.1.head rfl _ (SnapshotFormat.decodeHead_encodeHead _) _ rfl, hs.2 _ rfl⟩

theorem fileSays_put (hp : Permits terms t (.write path bytes)) :
    (w.put path bytes).FileSays path bytes := by
  cases hp
  case staging h =>
    cases path
    case pendingHead owner =>
      simp only [CloudRequest.isStaging, Bool.and_eq_true] at h
      refine ⟨fun _ record hd head hh => ?_, nofun⟩
      rw [hd] at h
      simp [Option.mem_def.mp hh] at h
    case snapshot => exact ⟨nofun, nofun⟩
    all_goals cases h
  case head head _ _ =>
    refine ⟨fun _ record hd g hg => ?_, nofun⟩
    rw [SnapshotFormat.decodeHead_encodeHead] at hd
    obtain rfl := Option.some.inj hd
    obtain rfl := Option.some.inj hg
    simp [put, SnapshotFormat.decodeHead_encodeHead]
  case latest head _ hh hb =>
    refine ⟨nofun, fun _ pointer hd => .inl ?_⟩
    have hs : SnapshotCodec.decodePointer bytes = some head := hw.logs device _ (ht hb)
    obtain rfl := Option.some.inj (hs.symm.trans hd)
    exact (published_of_publishes hw ht hh).1
  case current => exact ⟨nofun, nofun⟩

theorem Effects.files (hp : Permits terms t c)
    (h : w.Effects device c x w') :
    ∀ path bytes, w'.files path = some bytes → w'.FileSays path bytes := by
  intro path bytes hb
  have hg := h.grows
  cases h
  case write written body _ =>
    by_cases hw' : path = written
    · subst hw'
      simp only [put, update_self, Option.some.injEq] at hb
      subst hb
      exact fileSays_put hw ht hp
    · simp only [put, update_of_ne hw'] at hb
      exact (hw.files path bytes hb).mono hg
  case delete removed _ =>
    simp only [remove, update_apply] at hb
    split at hb
    · cases hb
    · exact (hw.files path bytes hb).mono hg
  all_goals exact (hw.files path bytes hb).mono hg

end

theorem Effects.files_head (hp : Permits terms t c) (h : w.Effects device c x w')
    (hc : ∀ bytes, c ≠ .write (.head owner) bytes) :
    w'.files (.head owner) = w.files (.head owner) := by
  cases h
  case write path bytes _ =>
    have hn : .head owner ≠ path := by
      rintro rfl
      exact hc bytes rfl
    simp only [put, update_of_ne hn]
  case delete path _ =>
    have hn : .head owner ≠ path := by
      rintro rfl
      cases hp
      case staging h => cases h
    simp only [remove, update_of_ne hn]
  all_goals rfl

theorem Effects.published_of_headless (h : w.Effects device c x w') (hc : c.isHeadless) :
    w'.published = w.published := by
  cases h
  case write path bytes _ => cases path <;> first | rfl | cases hc
  all_goals rfl

section

variable (hw : w.Sound) (ht : t ⊆ w.log device)
include hw ht

theorem Effects.receipts (hp : Permits terms t c)
    (h : w.Effects device c x w') (owner : String) (pointer : RemoteSyncPointer)
    (receipt : ValidatedSnapshot) (hr : (pointer, receipt) ∈ w'.receipts owner) :
    w'.Receipted owner pointer receipt := by
  have hg := h.grows
  cases h
  case recordReceipt found made _ =>
    simp only [keepReceipt, update_apply] at hr
    split at hr
    case isTrue ho =>
      subst ho
      rcases List.mem_cons.mp hr with hm | hr
      · have ⟨rfl, rfl⟩ := Prod.mk.inj hm
        cases hp
        case staging h => cases h
        case receipt snapshot hs hc => exact ⟨snapshot, hs.mono ht, hc⟩
      · exact (hw.receipts _ _ _ hr).mono hg
    case isFalse => exact (hw.receipts _ _ _ hr).mono hg
  all_goals exact (hw.receipts _ _ _ hr).mono hg

theorem known_of_readable
    (h : Readable t head) : w.Known head := by
  cases h
  case device path bytes record hp hg hd hc =>
    have hs : w.FileSays path bytes := hw.logs device _ (ht hg)
    exact .inl (hs.head hp record (DeviceHead.decodeHead_of_decode hd) head hc)
  case shared bytes hr hd =>
    have hs : w.FileSays .latest bytes := hw.logs device _ (ht hr)
    exact hs.latest rfl head (hw.logs device _ (ht hd))

theorem knows_of_matches
    (h : Matches t head) : w.Knows device head.revisionId := by
  have ⟨_, built, content, hb, hs, hc⟩ := h
  rcases hc with ⟨snapshot, hf, hc⟩ | ⟨receipt, hg, rfl⟩
  · exact .matched ⟨head, built, snapshot, content, rfl, hb.mono ht, hs, hf.mono ht, hc⟩
  · have ⟨snapshot, hf, hc⟩ : w.Receipted device head receipt := hw.logs device _ (ht hg)
    exact .matched ⟨head, built, snapshot, _, rfl, hb.mono ht, hs, hf, hc⟩

end

omit [SnapshotCodec] in
theorem Known.published (h : w.Known pointer) (hc : pointer.syncClock = some clock) :
    pointer ∈ w.published := by
  rcases h with h | h
  · exact h
  · simp [h.1] at hc

-- A pointer that a device knows can become its baseline.
omit [SnapshotCodec] in
theorem Known.baseline (h : w.Known pointer)
    (hk : w.Knows device pointer.revisionId) (hc : state.lastSyncedClock = pointer.syncClock)
    (hr : state.lastAppliedRemoteRevision = some pointer.revisionId) : w.Baseline device state where
  clock clock hm := by
    rw [hc] at hm
    exact ⟨pointer, h.published hm, hm, hk⟩
  revision revision hm := by
    rw [hr] at hm
    obtain rfl := Option.some.inj hm
    exact hk

section

variable (hw : w.Sound) (ht : t ⊆ w.log device)
include hw ht

theorem baseline_of_adopts
    (hb : w.Baseline device state) (h : Adopts t state next) : w.Baseline device next := by
  cases h
  case same hc hr => exact ⟨hc ▸ hb.clock, hr ▸ hb.revision⟩
  case head head hh hc hr =>
    rcases hh with hh | hh
    · have ⟨hp, hd⟩ := published_of_publishes hw ht hh
      exact Known.baseline (.inl hp) (.authored hp hd rfl) hc hr
    · exact (known_of_readable hw ht hh.readable).baseline (knows_of_matches hw ht hh) hc hr
  case renewed head hh ha hc hr =>
    exact (known_of_readable hw ht hh).baseline (hb.revision _ ha) hc hr

theorem baseline_of_applies (hg : w.Grows w') (hk : w'.Knows device snapshot.revisionId)
    (h : Applies t state careful snapshot expected next) : w'.Baseline device next := by
  have ⟨head, hh, hc, hr⟩ := h.head
  have hh : w.Known head ∧ head.revisionId = snapshot.revisionId := by
    rcases hh with ⟨hp, rfl⟩ | ⟨hr, hf⟩
    · exact ⟨.inl (published_of_publishes hw ht hp).1, rfl⟩
    · exact ⟨known_of_readable hw ht hr, (RemoteSyncPointer.validate_eq_ok.mp hf.fits).1.symm⟩
  rw [← hh.2] at hk hr
  exact (hh.1.mono hg).baseline hk hc hr

theorem baseline_of_serves (hb : w.Baseline device terms.state) (hg : w.Grows w')
    (hp : Permits terms t c)
    (hk : ∀ snapshot expected next, c = .applyChecked snapshot expected next →
      w'.Knows device snapshot.revisionId)
    (h : (w.stores device).Serves device c x store) : w'.Baseline device store.state := by
  have hold := (hw.baselines device).mono hg
  have hn {next : CloudSyncState} (hn : store.Normalizes device next)
      (hb : w'.Baseline device next) : w'.Baseline device store.state := by
    have ⟨_, _, _, _, _, _, hs⟩ := hn
    rw [hs]
    exact ⟨hb.clock, hb.revision⟩
  cases h
  case apply hs | applyUnseen hs =>
    cases hp
    case staging h => cases h
    case apply hp => exact hn hs (baseline_of_applies hw ht hg (hk _ _ _ rfl) hp)
  case persist | persistUnseen =>
    cases hp
    case staging h => cases h
    case persist hp => exact (baseline_of_adopts hw ht hb hp).mono hg
  all_goals exact hold

theorem Effects.baselines
    (hb : w.Baseline device terms.state) (hp : Permits terms t c) (h : w.Effects device c x w')
    (owner : String) : w'.Baseline owner (w'.stores owner).state := by
  have hg := h.grows
  have hold := (hw.baselines owner).mono hg
  cases h
  case apply snapshot expected next _ store hs he =>
    by_cases ho : owner = device
    · subst ho
      rw [show (w.apply owner snapshot.revisionId store).stores owner = store from
        update_self ..]
      have hm : snapshot.revisionId ∈ (w.apply owner snapshot.revisionId store).applied owner := by
        simp [Fleet.apply]
      refine baseline_of_serves hw ht hb hg hp ?_ hs
      rintro _ _ _ ⟨⟩
      exact .applied hm
    · rwa [show (w.apply device snapshot.revisionId store).stores owner = w.stores owner from
        update_of_ne ho ..]
  case persist next _ store hs =>
    by_cases ho : owner = device
    · subst ho
      rw [show (w.save owner store).stores owner = store from update_self ..]
      exact baseline_of_serves hw ht hb hg hp (by rintro _ _ _ ⟨⟩) hs
    · rwa [show (w.save device store).stores owner = w.stores owner from
        update_of_ne ho ..]
  all_goals exact hold

end

end Effects

end Sound

end Fleet

end NyaTerm

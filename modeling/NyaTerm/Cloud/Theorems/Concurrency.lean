import NyaTerm.Cloud.Theorems.Fleet

open Program System

namespace NyaTerm

open CloudSync

section

variable [SnapshotFormat] [SnapshotCodec]

-- The snapshot that a head stands for holds something of the user.
def RemoteSyncPointer.HoldsWork (head : RemoteSyncPointer) : Prop :=
  ∃ bytes snapshot, SnapshotCodec.decodeSnapshot bytes = some snapshot ∧
    head.validate snapshot = .ok () ∧ snapshot.hasUserContent = true

namespace Fleet

variable {w : Fleet} {call : CloudCall}

-- The heads are what the files of the devices say.
def IsHead (w : Fleet) (head : RemoteSyncPointer) : Prop :=
  ∃ bytes record, w.files (.head head.deviceId) = some bytes ∧
    SnapshotFormat.decodeHead bytes = some record ∧ record.committed = some head

def IsMaximal (w : Fleet) (head : RemoteSyncPointer) : Prop :=
  w.IsHead head ∧ ∀ other, w.IsHead other → ¬ other.dominates head

theorem isHead_iff (hw : w.Sound) : w.IsHead h ↔ w.current h.deviceId = some h := by
  rw [IsHead, hw.heads]
  constructor
  case mp =>
    rintro ⟨bytes, record, hf, hd, hc⟩
    obtain ⟨head, hh, rfl⟩ := Option.map_eq_some_iff.mp hf
    rw [SnapshotFormat.decodeHead_encodeHead] at hd
    obtain rfl := Option.some.inj hd
    exact hh.trans hc
  case mpr =>
    intro hc
    exact ⟨_, _, by rw [hc]; rfl, SnapshotFormat.decodeHead_encodeHead _, rfl⟩

theorem published_of_isHead (hw : w.Sound) (h' : w.IsHead h) : h ∈ w.published :=
  List.mem_of_find?_eq_some ((isHead_iff hw).mp h')

theorem dominates_iff (hw : w.Sound) (hg : g ∈ w.published) (hh : h ∈ w.published) :
    g.dominates h ↔ h.counts < g.counts := by
  have ⟨c, hc⟩ := Option.isSome_iff_exists.mp (hw.clocked g hg)
  have ⟨d, hd⟩ := Option.isSome_iff_exists.mp (hw.clocked h hh)
  rw [RemoteSyncPointer.dominates_of_clocks hc hd, SnapshotSyncClock.strictlyDominates_iff,
    counts_eq hc, counts_eq hd]

theorem IsMaximal.history (hw : w.Sound) (hm : w.IsMaximal h) :
    ∀ e ∈ w.published, ¬ h.counts < e.counts := by
  intro e he hlt
  have ⟨head, hc, hle⟩ := exists_current hw he
  have hd : head.deviceId = e.deviceId := by simpa using List.find?_some hc
  have hh : w.IsHead head := (isHead_iff hw).mpr (hd ▸ hc)
  refine hm.2 head hh ?_
  rw [dominates_iff hw (published_of_isHead hw hh) (published_of_isHead hw hm.1)]
  exact hlt.trans_le hle

omit [SnapshotCodec] in
theorem SameHeads.isHead (hs : w.SameHeads w') : w'.IsHead h ↔ w.IsHead h := by
  simp only [IsHead, hs.files]

omit [SnapshotCodec] in
theorem SameHeads.isMaximal (hs : w.SameHeads w') : w'.IsMaximal h ↔ w.IsMaximal h := by
  simp only [IsMaximal, hs.isHead]

omit [SnapshotCodec] in
theorem Replaces.isHead (hr : w.Replaces w' device g) :
    w'.IsHead h ↔ if h.deviceId = device then h = g else w.IsHead h := by
  split
  case isTrue hd =>
    subst hd
    simp [IsHead, hr.own, SnapshotFormat.decodeHead_encodeHead, eq_comm]
  case isFalse hd => simp only [IsHead, hr.others _ hd]

-- A head that is no longer maximal once another one is published is below that one.
theorem Replaces.dominates (hw : w.Sound) (hw' : w'.Sound) (hd : g.deviceId = device)
    (hr : w.Replaces w' device g) (hm : w.IsMaximal h) (hn : ¬ w'.IsMaximal h) :
    g.dominates h := by
  have hg : w'.IsHead g := hr.isHead.mpr (by simp [hd])
  have hp := published_of_isHead hw hm.1
  by_cases ho : h.deviceId = device
  · -- the device has replaced this head itself
    have hp' : h ∈ w'.published := by simp [hr.published, hp]
    rw [dominates_iff hw' (published_of_isHead hw' hg) hp', Pi.lt_def]
    have hc := (isHead_iff hw').mp hg
    refine ⟨hw'.history.le_newest hc hp' (ho.trans hd.symm), g.deviceId, ?_⟩
    obtain ⟨_, _⟩ | ⟨hh, he⟩ := hr.published ▸ hw'.history
    exact hh.fresh he hp
  · have hh : w'.IsHead h := hr.isHead.mpr (by simp [ho, hm.1])
    simp only [IsMaximal, hh, true_and, not_forall, not_not] at hn
    have ⟨other, hother, hdom⟩ := hn
    rw [hr.isHead] at hother
    split at hother
    · exact hother ▸ hdom
    · exact absurd hdom (hm.2 other hother)

-- Whoever has to spare what they do not know publishes only above heads that they know.
theorem knows_of_commits (hw : w.Sound) (ha : w.Attends device call t)
    (hc : Commits t call.terms g) (hs : call.operation.isCareful) (hk : h.HoldsWork)
    (hm : w.IsMaximal h) (hd : h.counts ≤ g.counts) : w.Knows device h.revisionId := by
  have ⟨u, r, hi, hr, hsingle, ⟨clock, hn, hclock⟩, hsel⟩ := hc.single hs
  have hp := published_of_isHead hw hm.1
  have he := extends_of_nextClock hw ha hc.first hi hr (.inl rfl) (ha.owner ▸ hn)
    (owner_of_commits hw ha hc).1 hclock
  obtain ⟨_, hh | hh⟩ := hw.history.known_of_counted he hp (hm.history hw) (hd _)
  · have ⟨paths, records, hrs⟩ := runs_readHeads hr
    have ⟨top, hsome, hdom⟩ := hrs.collects.selected_dominates hsingle hh
    obtain rfl : h = top := by
      refine hdom.resolve_right fun hdom => ?_
      have ⟨c, hc, hlt⟩ := RemoteSyncPointer.transGen_dominates hdom
      have htop := (known_of_readable hw ha.logged
        ((readable_of_selected hr top hsome).mono hi.subset)).published hc
      have ⟨d, hcd⟩ := Option.isSome_iff_exists.mp (hw.clocked h hp)
      refine hm.history hw top htop ?_
      rw [counts_eq hc, counts_eq hcd]
      exact SnapshotSyncClock.strictlyDominates_iff.mp (hlt d hcd)
    rcases hsel h hsome with hl | ⟨snapshot, hf, hu⟩
    · exact ha.baseline.revision _ hl
    · have ⟨bytes, hg⟩ := hf.decoded
      have ⟨bytes', snapshot', hb', hv', hu'⟩ := hk
      have hb : SnapshotCodec.decodeSnapshot bytes = some snapshot :=
        hw.logs device _ (ha.logged hg)
      have hsame := SnapshotCodec.hasUserContent_of_hash hb hb'
        ((RemoteSyncPointer.validate_eq_ok.mp hf.fits).2.2.trans
          (RemoteSyncPointer.validate_eq_ok.mp hv').2.2.symm)
      simp [hu, hu'] at hsame
  · have ⟨c, hc⟩ := Option.isSome_iff_exists.mp (hw.clocked h hp)
    have ⟨head, hhead, hclk, hknow⟩ := ha.baseline.clock c (hh.symm.trans hc)
    rwa [hw.history.eq_of_clock_eq hp hhead (by rw [counts_eq hc, counts_eq hclk])]

end Fleet

-- A head with something of the user stops being maximal only when a device publishes one above it,
-- and that device knows it unless its user insists.
theorem concurrent_work_is_kept {allowed : CloudOperation → Prop}
    {s s' : (fleetSystem allowed).Config} (hr : Reachable Fleet.Initial s) (hs : Step s s')
    {h : RemoteSyncPointer} (hk : h.HoldsWork) (hm : s.world.IsMaximal h)
    (hn : ¬ s'.world.IsMaximal h) : ∃ device call t g, s.sessions device = some ⟨call, t⟩ ∧
      g.deviceId = device ∧ s'.world.IsHead g ∧ g.dominates h ∧
      (call.operation.isCareful → s.world.Knows device h.revisionId) := by
  have ⟨hw, ha⟩ := Fleet.keeps_fleetSystem.reachable hr
  have hw' := (Fleet.keeps_fleetSystem.reachable (hr.step hs)).1
  cases hs
  case start | stop => exact absurd hm hn
  case move hmove =>
    obtain ⟨_, _, _, rfl⟩ := hmove
    exact absurd hm hn
  case call device call t c x w hsession hasks hanswers =>
    have ha := ha device _ hsession
    have hp := call.obeys_program t c hasks
    obtain ⟨w₁, he, rfl⟩ := hanswers
    rcases he.heads hw ha hp with hsame | ⟨g, hc, hd, hrep, _⟩
    · exact absurd (hsame.isMaximal.mpr hm) hn
    · have hrep : s.world.Replaces (w₁.record device ⟨c, x⟩) device g :=
        { hrep with }
      have hdom := hrep.dominates hw hw' hd hm hn
      have hg : (w₁.record device ⟨c, x⟩).IsHead g := hrep.isHead.mpr (by rw [if_pos hd])
      refine ⟨device, call, t, g, hsession, hd, hg, hdom, fun hs => ?_⟩
      refine Fleet.knows_of_commits hw ha hc hs hk hm ?_
      have hp := Fleet.published_of_isHead hw hm.1
      rw [Fleet.dominates_iff hw' (Fleet.published_of_isHead hw' hg)
        (by simp [hrep.published, hp])] at hdom
      exact hdom.le

end

-- Two devices with the same documents: one of them publishes them, and the other one goes on from
-- there.
namespace SnapshotFormat.Sample

open CloudSync

local instance : SnapshotFormat := sample
local instance : SnapshotCodec := .sample

-- What the calls of a device leave behind if they are answered like this.
def follow (w : Fleet) (device : String) (e : Event CloudSyncError Answer) : Fleet :=
  Fleet.record (match e with
    | ⟨.write path bytes, _⟩ => w.put path bytes
    | ⟨.buildSnapshot, .ok snapshot⟩ => w.issue device snapshot.revisionId
    | ⟨.persistState next, _⟩ => w.save device { w.stores device with state := next }
    | _ => w) device e

def unsynced : CloudSyncState := ⟨none, none, none, none⟩

-- Two devices that hold the same documents.
def twins : Fleet where
  files _ := none
  stores _ := ⟨(1 : Nat), unsynced⟩
  receipts _ := []
  issued _ := none
  legacy := []
  published := []
  applied _ := []
  log _ := []

def made (device revision : String) (entities : Nat) : RawPortableSnapshot :=
  { RawPortableSnapshot.sync revision device "" 0 entities with
    schemaVersion := RawPortableSnapshot.fixedSchemaVersion
    payloadHash := sampleHash entities
    entitiesHash := some (sampleHash entities) }

def firstSnapshot : RawPortableSnapshot :=
  { made "a" "ra" 1 with syncClock := some ⟨(∅ : BTreeMap String Nat).insert "a" 1, none⟩ }

def firstHead : RemoteSyncPointer := .ofSnapshot firstSnapshot

def layout : CloudTrace :=
  [⟨.checkpoint, .ok ()⟩, ⟨.createDir .sync, .ok ()⟩, ⟨.createDir .snapshots, .ok ()⟩,
    ⟨.createDir .heads, .ok ()⟩]

def record (device revision : String) : Bytes :=
  SnapshotFormat.encodeHead ⟨device, none, some revision⟩

def uploading (device : String) (s : RawPortableSnapshot) : CloudTrace :=
  [⟨.encodeSnapshot s, .ok (bytes s)⟩, ⟨.fileCapacity, .ok none⟩, ⟨.fileCapacity, .ok none⟩,
    ⟨.write (.pendingHead device) (record device s.revisionId), .ok ()⟩,
    ⟨.readIfExists (.pendingHead device), .ok (some (record device s.revisionId))⟩,
    ⟨.write (.snapshot s.revisionId) (bytes s), .ok ()⟩] ++ inspected s ++
  [⟨.readIfExists .latest, .ok none⟩, ⟨.beginCommit, .ok ()⟩]

def firstPush : CloudTrace :=
  layout ++ [⟨.buildSnapshot, .ok (made "a" "ra" 1)⟩, ⟨.listFiles .heads, .ok []⟩,
    ⟨.readIfExists .latest, .ok none⟩] ++ uploading "a" firstSnapshot

def optionsOf (device : String) : LocalCloudSyncOptions := ⟨true, device, none⟩

abbrev commit (head : RemoteSyncPointer) : CloudRequest :=
  .write (.head head.deviceId) (SnapshotFormat.encodeHead ⟨head.deviceId, some head, none⟩)

def calling (device : String) (state : CloudSyncState) : CloudCall :=
  ⟨optionsOf device, state, .push false⟩

theorem asks_firstPush : Asks (calling "a" unsynced).program firstPush (commit firstHead) := by
  repeat first | exact .here | refine .there ?_

def followAll (w : Fleet) (device : String) (t : CloudTrace) : Fleet :=
  t.foldl (follow · device) w

def beforeFirst : Fleet :=
  followAll twins "a" firstPush

def afterFirst : Fleet :=
  follow beforeFirst "a" ⟨commit firstHead, .ok ()⟩

theorem initial_twins : twins.Initial where
  heads _ _ := rfl
  latest _ _ h := by cases h
  published := rfl
  receipts _ := rfl
  log _ := rfl
  clock _ := rfl
  revision _ _ h := by cases h

theorem files_afterFirst : afterFirst.files = Function.update (Function.update (Function.update
    (fun _ => none) (.pendingHead "a") (some (record "a" "ra"))) (.snapshot "ra")
      (some (bytes firstSnapshot))) (.head "a")
        (some (SnapshotFormat.encodeHead ⟨"a", some firstHead, none⟩)) := rfl

theorem list_afterFirst (path : RemotePath) : path ∈ [.head "a", .pendingHead "a"] ↔
    path.isHead ∧ (afterFirst.files path).isSome := by
  rw [files_afterFirst]
  cases path <;> simp [Function.update_apply, RemotePath.isHead]

-- What the other device finds.
def found : CloudTrace :=
  [⟨.listFiles .heads, .ok [.head "a", .pendingHead "a"]⟩,
    ⟨.readIfExists (.head "a"),
      .ok (some (SnapshotFormat.encodeHead ⟨"a", some firstHead, none⟩))⟩,
    ⟨.readIfExists (.pendingHead "a"), .ok (some (record "a" "ra"))⟩,
    ⟨.readIfExists .latest, .ok none⟩] ++ inspected firstSnapshot

def adopted : CloudSyncState :=
  .synced (sampleHash 1) ("entities-v1:" ++ sampleHash 1) firstHead

def adopting : CloudTrace :=
  layout ++ [⟨.buildSnapshot, .ok (made "b" "rb" 1)⟩] ++ found ++ [⟨.persistState adopted, .ok ()⟩]

theorem runs_adopting : Runs (calling "b" unsynced).program adopting
    (.ok ⟨adopted, some firstHead, .upToDate⟩) := by
  repeat first | exact .done | refine .call ?_

def afterAdopting : Fleet :=
  followAll afterFirst "b" adopting

-- Then the user of that device goes on working.
def edited : Fleet :=
  afterAdopting.save "b" ⟨(2 : Nat), adopted⟩

def secondSnapshot : RawPortableSnapshot :=
  { made "b" "rc" 2 with
    syncClock := some ⟨((∅ : BTreeMap String Nat).insert "a" 1).insert "b" 1, none⟩ }

def secondHead : RemoteSyncPointer := .ofSnapshot secondSnapshot

def secondPush : CloudTrace :=
  layout ++ [⟨.buildSnapshot, .ok (made "b" "rc" 2)⟩] ++ found ++ uploading "b" secondSnapshot

theorem asks_secondPush : Asks (calling "b" adopted).program secondPush (commit secondHead) := by
  repeat first | exact .here | refine .there ?_

def beforeSecond : Fleet :=
  followAll edited "b" secondPush

-- Both devices are answered as the store and the clock answer them.
theorem evolves_devices : Evolves (S := fleetSystem allowed) "a" twins firstPush beforeFirst ∧
    Evolves (S := fleetSystem allowed) "b" afterFirst adopting afterAdopting ∧
    Evolves (S := fleetSystem allowed) "b" edited secondPush beforeSecond := by
  refine ⟨?_, ?_, ?_⟩ <;> repeat first
    | exact .nil
    | refine .cons ⟨_, .other rfl, rfl⟩ ?_
    | refine .cons ⟨_, .read, rfl⟩ ?_
    | refine .cons ⟨_, .write, rfl⟩ ?_
    | refine .cons ⟨_, .decodeSnapshot rfl, rfl⟩ ?_
    | refine .cons ⟨_, .build ⟨"", _, 0, rfl⟩ ⟨rfl, List.not_mem_nil⟩, rfl⟩ ?_
    | refine .cons ⟨_, .list list_afterFirst, rfl⟩ ?_
    | refine .cons ⟨_, .list (fun path => by simp [twins, Fleet.record, Fleet.issue]), rfl⟩ ?_
    | refine .cons ⟨_, .persist .persist, rfl⟩ ?_

-- Everybody is careful.
abbrev Careful : System CloudSyncError Answer :=
  fleetSystem fun operation => operation.isCareful

theorem reachable_afterFirst (h : allowed (.push false)) : ∃ sessions, sessions "b" = none ∧
    Reachable (S := fleetSystem allowed) Fleet.Initial ⟨afterFirst, sessions⟩ := by
  have hr : Reachable (S := fleetSystem allowed) Fleet.Initial ⟨beforeFirst,
      Function.update (fun _ => none) "a" (some ⟨calling "a" unsynced, firstPush⟩)⟩ :=
    .steps (.init initial_twins) (steps_asks rfl ⟨h, rfl, rfl⟩ evolves_devices.1 asks_firstPush)
  exact ⟨_, rfl, hr.step (step_call asks_firstPush ⟨_, .write, rfl⟩)⟩

theorem reachable_edited : ∃ sessions, sessions "b" = none ∧
    Reachable (S := Careful) Fleet.Initial ⟨edited, sessions⟩ := by
  have ⟨sessions, hn, hr⟩ := @reachable_afterFirst (·.isCareful) rfl
  have hr : Reachable (S := Careful) Fleet.Initial ⟨afterAdopting,
      Function.update sessions "b" (some ⟨calling "b" unsynced, adopting⟩)⟩ :=
    hr.steps (steps_runs hn ⟨rfl, rfl, rfl⟩ evolves_devices.2.1 runs_adopting)
  have hm : Fleet.Edits afterAdopting edited := ⟨"b", ⟨(2 : Nat), adopted⟩, rfl, rfl⟩
  exact ⟨_, Function.update_self .., (hr.step (.stop "b")).step (.move hm)⟩

def afterSecond : Fleet :=
  follow beforeSecond "b" ⟨commit secondHead, .ok ()⟩

theorem step_second : ∃ s s' : Careful.Config, s.world = beforeSecond ∧ s'.world = afterSecond ∧
    Reachable Fleet.Initial s ∧ Step s s' := by
  have ⟨sessions, hn, hr⟩ := reachable_edited
  have hs : Reachable (S := Careful) Fleet.Initial ⟨beforeSecond,
      Function.update sessions "b" (some ⟨calling "b" adopted, secondPush⟩)⟩ :=
    hr.steps (steps_asks hn ⟨rfl, rfl, rfl⟩ evolves_devices.2.2 asks_secondPush)
  exact ⟨_, _, rfl, rfl, hs, .call (Function.update_self ..) asks_secondPush ⟨_, .write, rfl⟩⟩

theorem holdsWork_firstHead : firstHead.HoldsWork :=
  ⟨bytes firstSnapshot, firstSnapshot, rfl, rfl, rfl⟩

theorem isMaximal_firstHead (hw : beforeSecond.Sound) : beforeSecond.IsMaximal firstHead := by
  refine ⟨(Fleet.isHead_iff hw).mpr rfl, fun other ho => ?_⟩
  obtain rfl := List.mem_singleton.mp (Fleet.published_of_isHead hw ho)
  decide

theorem isHead_secondHead (hw : afterSecond.Sound) : afterSecond.IsHead secondHead :=
  (Fleet.isHead_iff hw).mpr rfl

theorem dominates_secondHead : secondHead.dominates firstHead := by
  decide

theorem concurrent_work_is_kept_sample : ∃ s s' : Careful.Config, s.world = beforeSecond ∧
    s'.world = afterSecond ∧ ∃ device call t g, s.sessions device = some ⟨call, t⟩ ∧
      g.deviceId = device ∧ s'.world.IsHead g ∧ g.dominates firstHead ∧
      (call.operation.isCareful → s.world.Knows device firstHead.revisionId) := by
  have ⟨s, s', hw, hw', hr, hs⟩ := step_second
  have hsound := (Fleet.keeps_fleetSystem.reachable hr).1
  have hsound' := (Fleet.keeps_fleetSystem.reachable (hr.step hs)).1
  refine ⟨s, s', hw, hw', concurrent_work_is_kept hr hs holdsWork_firstHead ?_ ?_⟩
  · rw [hw] at hsound ⊢
    exact isMaximal_firstHead hsound
  · rw [hw'] at hsound' ⊢
    exact fun hm => hm.2 secondHead (isHead_secondHead hsound') dominates_secondHead

-- The second device has never applied, made or published what the first one has published. It has
-- found out that its own documents were the same, and then it went on from there.
theorem adopted_work_is_superseded : ∃ s s' : Careful.Config, Reachable Fleet.Initial s ∧
    Step s s' ∧ firstHead.HoldsWork ∧ s.world.IsMaximal firstHead ∧
    ¬ s'.world.IsMaximal firstHead ∧ ∀ g, s'.world.IsHead g → g.dominates firstHead →
      firstHead.revisionId ∉ s.world.applied g.deviceId ∧
      ∀ head ∈ s.world.published, head.deviceId = g.deviceId →
        head.revisionId ≠ firstHead.revisionId ∧ head.payloadHash ≠ firstHead.payloadHash := by
  have ⟨s, s', hw, hw', hr, hs⟩ := step_second
  have hsound := (Fleet.keeps_fleetSystem.reachable hr).1
  have hsound' := (Fleet.keeps_fleetSystem.reachable (hr.step hs)).1
  refine ⟨s, s', hr, hs, holdsWork_firstHead, ?_⟩
  rw [hw] at hsound ⊢
  rw [hw'] at hsound' ⊢
  refine ⟨isMaximal_firstHead hsound, ?_, ?_⟩
  · exact fun hm => hm.2 secondHead (isHead_secondHead hsound') dominates_secondHead
  · intro g hg hd
    have hp : g ∈ [secondHead, firstHead] := Fleet.published_of_isHead hsound' hg
    rcases List.mem_pair.mp hp with rfl | rfl
    · refine ⟨List.not_mem_nil, fun head hh he => ?_⟩
      obtain rfl := List.mem_singleton.mp hh
      exact absurd he (by decide)
    · exact absurd hd (by decide)

end SnapshotFormat.Sample

end NyaTerm

import NyaTerm.Cloud.Theorems.Concurrency

open Program System Relation

namespace NyaTerm

open CloudSync

theorem RemoteHeads.mem_observedRevisions {r : RemoteHeads} :
    revision ∈ r.observedRevisions ↔ ∃ head ∈ r.maximal, head.revisionId = revision := by
  rw [observedRevisions, List.mem_insertionSort, List.mem_map]

theorem RemoteHeads.exists_maximal_le {r : RemoteHeads} (h : head ∈ r.heads) :
    ∃ top ∈ r.maximal, head.counts ≤ top.counts := by
  obtain ⟨top, htop, rfl | hd⟩ := exists_maximal h
  · exact ⟨head, htop, le_rfl⟩
  · refine ⟨top, htop, ?_⟩
    have ⟨c, hc, hlt⟩ := RemoteSyncPointer.transGen_dominates hd
    rw [Fleet.counts_eq hc, RemoteSyncPointer.counts]
    cases hh : head.syncClock
    case none => exact fun _ => Nat.zero_le _
    case some d => exact (SnapshotSyncClock.strictlyDominates_iff.mp (hlt d hh)).le

section

variable [SnapshotFormat] [SnapshotCodec]

namespace Fleet

variable {w : Fleet} {call : CloudCall} {t u : CloudTrace}
  {g : RemoteSyncPointer}

-- The user can have been shown this revision.
def Offers (w : Fleet) (revision : String) : Prop :=
  (∃ head ∈ w.published, head.revisionId = revision) ∨ revision ∈ w.legacy

theorem eq_of_revisionId (hw : w.Sound) (hg : g ∈ w.published) (hh : h ∈ w.published)
    (he : g.revisionId = h.revisionId) : g = h :=
  List.inj_on_of_nodup_map hw.revisions hg hh he

theorem Known.published_of_counts_le (hw : w.Sound) (hh : h ∈ w.published)
    (hle : h.counts ≤ g.counts) (hk : w.Known g) : g ∈ w.published := by
  refine hk.resolve_right fun hn => ?_
  have hp := (hw.history.pos hh).trans_le (hle h.deviceId)
  simp [RemoteSyncPointer.counts, hn.1, SnapshotSyncClock.count_empty] at hp

theorem below_maximal (hw : w.Sound) (ha : w.Attends device call t) (hi : u <:+: t)
    (hr : Runs readHeads u (.ok r)) (hp : previous = call.state.lastSyncedClock ∨ previous = none)
    (hh : h ∈ w.upon r previous) : ∃ top ∈ r.maximal, top ∈ w.published ∧ h.counts ≤ top.counts := by
  have ⟨later, hl, hle⟩ : ∃ later ∈ r.heads, h.counts ≤ later.counts := by
    obtain ⟨hm, hh | rfl⟩ := hh
    · exact ⟨h, hh, le_rfl⟩
    · have hs : Seen t h := by
        refine ha.seen h hm (hp.resolve_right fun hn => ?_).symm
        simpa [hn] using hw.clocked h hm
      exact mem_heads_of_read h.deviceId hr (fun paths hl => hs.listed paths (hl.mono hi.subset))
        fun found hf => hs.read found (hf.mono hi.subset)
  have ⟨top, htop, hle'⟩ := RemoteHeads.exists_maximal_le hl
  refine ⟨top, htop, ?_, hle.trans hle'⟩
  exact (known_of_mem_heads hw ha.logged hi hr (mem_heads_of_mem_maximal htop)).published_of_counts_le
    hw hh.1 (hle.trans hle')

section

variable (hw : w.Sound) (hl : t ⊆ w.log device) (hi : u <:+: t) (hr : Runs readHeads u (.ok r))
include hw hl hi hr

theorem mem_compatibility (hh : h ∈ r.heads) (hn : h.syncClock = none) :
    h ∈ r.compatibility := by
  have ⟨paths, records, hrs⟩ := runs_readHeads hr
  refine ((hrs.collects.mem_heads h).mp hh).resolve_left fun hm => ?_
  have ⟨record, hm, hc⟩ := List.mem_filterMap.mp hm
  have ⟨bytes, hg, hd⟩ := hrs.read.sound record hm
  have hs : w.FileSays record.path bytes := hw.logs device _ (hl (hg.mono hi.subset))
  have hp := hs.head (by rw [DeviceHead.path]; split <;> rfl) record
    (DeviceHead.decodeHead_of_decode hd) h hc
  simpa [hn] using hw.clocked h hp

theorem dominates_of_observed (hn : r.nextClock previous device = .ok clock)
    (hc : g.syncClock = some clock) (hk : w.Known m) (hm : m.revisionId ∈ r.observedRevisions) :
    g.dominates m := by
  have ⟨head, hh, he⟩ := RemoteHeads.mem_observedRevisions.mp hm
  have hh := mem_heads_of_mem_maximal hh
  have ht := RemoteHeads.nextClock_eq_ok hn
  rcases hk with hk | ⟨hk, hlegacy⟩
  · rcases known_of_mem_heads hw hl hi hr hh with hp | ⟨_, hp⟩
    · obtain rfl := eq_of_revisionId hw hp hk he
      have ⟨d, hd⟩ := Option.isSome_iff_exists.mp (hw.clocked head hp)
      rw [RemoteSyncPointer.dominates_of_clocks hc hd]
      exact ht.dominates_head head hh d hd
    · exact absurd (he ▸ hp) (hw.issued m hk).2
  · rcases known_of_mem_heads hw hl hi hr hh with hp | ⟨hp, _⟩
    · exact absurd (he ▸ hlegacy) (hw.issued head hp).2
    · have hm := mem_compatibility hw hl hi hr hh hp
      simp [RemoteSyncPointer.dominates, hc, hk, ht.legacyRevision head hm hp, he]

end

-- What is published after the branches were shown is not below a head that builds upon them.
theorem not_counts_le_of_later (hw' : w'.Sound) (hg : w.Grows w') (ha : w'.Attends device call t)
    (hi : u <:+: t) (hr : Runs readHeads u (.ok r))
    (hp : previous = call.state.lastSyncedClock ∨ previous = none)
    (he : VectorClock.Extends (·.deviceId) (·.counts) w'.published (w'.upon r previous) g)
    (ho : ∀ revision ∈ r.observedRevisions, w.Offers revision) (hh : h ∈ w'.published)
    (hn : h ∉ w.published) : ¬ h.counts ≤ g.counts := by
  intro hle
  have ⟨later, hs⟩ := hg.published
  have ⟨e, hk, hle⟩ := hw'.history.le_known_of_counted he hh (hle _)
  have ⟨top, htop, hpt, hle'⟩ := below_maximal hw' ha hi hr hp hk
  -- the branch above it was there before it was published
  have hold : top ∈ w.published := by
    rcases ho _ (RemoteHeads.mem_observedRevisions.mpr ⟨top, htop, rfl⟩) with ⟨m, hm, hr⟩ | hl
    · rwa [← eq_of_revisionId hw' (hg.published.subset hm) hpt hr]
    · exact absurd (hg.legacy ▸ hl) (hw'.issued top hpt).2
  have hnew : h ∈ later := by
    rw [← hs] at hh
    exact (List.mem_append.mp hh).resolve_right hn
  exact (hs ▸ hw'.history).not_le_of_later hnew hold (hle.trans hle')

theorem not_dominates_of_counts (hw : w.Sound) (hc : g.syncClock = some clock) (hh : h ∈ w.published)
    (hle : ¬ h.counts ≤ g.counts) : ¬ g.dominates h := by
  have ⟨d, hd⟩ := Option.isSome_iff_exists.mp (hw.clocked h hh)
  rw [RemoteSyncPointer.dominates_of_clocks hc hd, SnapshotSyncClock.strictlyDominates_iff,
    ← counts_eq hc, ← counts_eq hd]
  exact fun hlt => hle hlt.le

end Fleet

theorem Fleet.grows_of_steps {s s' : (fleetSystem allowed).Config} (h : ReflTransGen Step s s') :
    s.world.Grows s'.world := by
  induction h
  case refl => exact ⟨List.suffix_rfl, fun _ _ h => h, fun _ _ h => h, fun _ _ h => h, rfl⟩
  case tail hs hi =>
    refine hi.trans ?_
    cases hs
    case call he =>
      obtain ⟨w₁, he, rfl⟩ := he
      exact he.grows.trans (grows_record ..)
    case move hm =>
      obtain ⟨device, store, _, rfl⟩ := hm
      exact grows_save ..
    all_goals exact ⟨List.suffix_rfl, fun _ _ h => h, fun _ _ h => h, fun _ _ h => h, rfl⟩

-- A resolution publishes right after it has found again what the user was shown. Its head is above
-- every branch that was shown, it is concurrent with everything that was published since then, and it
-- is not above anything that is published later.
theorem resolution_publishes_what_was_shown {allowed : CloudOperation → Prop}
    {s₀ s : (fleetSystem allowed).Config} (h₀ : Reachable Fleet.Initial s₀)
    (hs : ReflTransGen Step s₀ s) {device : String} {options : LocalCloudSyncOptions}
    {state : CloudSyncState} {request : CloudResolutionRequest} {t : CloudTrace} {owner : String}
    {bytes : Bytes} (hshown : ∀ revision ∈ request.observedRevisions, s₀.world.Offers revision)
    (hsession : s.sessions device = some ⟨⟨options, state, .resolve request⟩, t⟩)
    (hasks : Asks (resolve options state request) t (.write (.head owner) bytes)) :
    (∃ t₁ t₂, t = t₁ ++ t₂ ∧ Runs (guardHead request) t₂ (.ok ()) ∧ Guards t₂ request) ∧
    ∃ g, owner = device ∧ bytes = SnapshotFormat.encodeHead ⟨device, some g, none⟩ ∧
      (∀ m, s.world.Known m → m.revisionId ∈ request.observedRevisions → g.dominates m) ∧
      (∀ h ∈ s.world.published, h ∉ s₀.world.published → ¬ g.dominates h ∧ ¬ h.dominates g) ∧
      ∀ s₁, ReflTransGen Step s s₁ → ∀ later earlier, s₁.world.published = later ++ g :: earlier →
        ∀ h ∈ later, ¬ g.dominates h := by
  have hg := Fleet.grows_of_steps hs
  have ⟨hw, ha⟩ := Fleet.keeps_fleetSystem.reachable (h₀.steps hs)
  have ha := ha device _ hsession
  have hp := CloudCall.obeys_program ⟨options, state, .resolve request⟩ t _ hasks
  obtain rfl := Fleet.head_owner hw ha hp owner bytes rfl
  have ⟨_, hguard⟩ := obeys_resolve t _ hasks
  have ⟨t₁, t₂, ht, hruns⟩ := hguard bytes (by rw [ha.owner])
  refine ⟨⟨t₁, t₂, ht, hruns, runs_guardHead hruns⟩, ?_⟩
  generalize hc : CloudRequest.write (.head owner) bytes = c at hp
  cases hp
  case staging h => subst hc; cases h
  case head g _ hcommits =>
    cases hc
    refine ⟨g, rfl, rfl, ?_⟩
    have ⟨_, previous, clock, ⟨u, r, hi, hread, he⟩, hobs, hprev, hnext, hclock⟩ := hcommits.ticks
    rw [he] at hnext hobs
    have hnext : r.nextClock previous g.deviceId = .ok clock := ha.owner ▸ hnext
    have hext := Fleet.extends_of_nextClock hw ha hcommits.first hi hread hprev hnext rfl hclock
    refine ⟨fun m hm hmem => ?_, fun h hh hn => ?_, fun s₁ hs₁ later earlier heq h hh => ?_⟩
    · exact Fleet.dominates_of_observed hw ha.logged hi hread hnext hclock hm (hobs ▸ hmem)
    · have hle := Fleet.not_counts_le_of_later hw hg ha hi hread hprev hext
        (hobs ▸ hshown) hh hn
      refine ⟨Fleet.not_dominates_of_counts hw hclock hh hle, ?_⟩
      have ⟨d, hd⟩ := Option.isSome_iff_exists.mp (hw.clocked h hh)
      rw [RemoteSyncPointer.dominates_of_clocks hd hclock, SnapshotSyncClock.strictlyDominates_iff,
        ← Fleet.counts_eq hclock, ← Fleet.counts_eq hd]
      exact fun hlt => (hw.history.fresh hext hh).not_ge (hlt.le _)
    · have hw₁ := (Fleet.keeps_fleetSystem.reachable ((h₀.steps hs).steps hs₁)).1
      refine Fleet.not_dominates_of_counts hw₁ hclock (heq ▸ List.mem_append_left _ hh) ?_
      exact (heq ▸ hw₁.history).not_le_of_later hh (.head _)
  all_goals cases hc

end

-- The other device has different documents. Its user is shown what the first one has published and
-- decides to keep their own.
namespace SnapshotFormat.Sample

local instance : SnapshotFormat := sample
local instance : SnapshotCodec := .sample

def differing : Fleet :=
  afterFirst.save "b" ⟨(2 : Nat), unsynced⟩

def keepLocal : CloudResolutionRequest :=
  ⟨["ra"], none, "entities-v1:" ++ sampleHash 2⟩

def resolving : CloudCall :=
  ⟨optionsOf "b", unsynced, .resolve keepLocal⟩

-- The heads as the device finds them, together with its own announcement if there is one.
def looking (own : List (RemotePath × Bytes)) : CloudTrace :=
  [⟨.listFiles .heads, .ok ([.head "a", .pendingHead "a"] ++ own.map (·.1))⟩,
    ⟨.readIfExists (.head "a"),
      .ok (some (SnapshotFormat.encodeHead ⟨"a", some firstHead, none⟩))⟩,
    ⟨.readIfExists (.pendingHead "a"), .ok (some (record "a" "ra"))⟩] ++
  own.map (fun file => ⟨.readIfExists file.1, .ok (some file.2)⟩) ++
  [⟨.readIfExists .latest, .ok none⟩]

def keptSnapshot : RawPortableSnapshot :=
  { made "b" "rb" 2 with
    syncClock := some ⟨((∅ : BTreeMap String Nat).insert "a" 1).insert "b" 1, none⟩ }

def keptHead : RemoteSyncPointer := .ofSnapshot keptSnapshot

def staging : CloudTrace :=
  [⟨.encodeSnapshot keptSnapshot, .ok (bytes keptSnapshot)⟩, ⟨.fileCapacity, .ok none⟩,
    ⟨.fileCapacity, .ok none⟩, ⟨.write (.pendingHead "b") (record "b" "rb"), .ok ()⟩,
    ⟨.readIfExists (.pendingHead "b"), .ok (some (record "b" "rb"))⟩,
    ⟨.write (.snapshot "rb") (bytes keptSnapshot), .ok ()⟩] ++ inspected keptSnapshot ++
  [⟨.beginCommit, .ok ()⟩]

def beforeGuard : CloudTrace :=
  [⟨.checkpoint, .ok ()⟩, ⟨.checkpoint, .ok ()⟩] ++ looking [] ++
  [⟨.buildSnapshot, .ok (made "b" "rb" 2)⟩] ++ inspected firstSnapshot ++ layout ++
  inspected firstSnapshot ++ staging

def guarding : CloudTrace :=
  looking [(.pendingHead "b", record "b" "rb")] ++ [⟨.buildSnapshot, .ok (made "b" "rc" 2)⟩]

theorem asks_resolving : Asks resolving.program (beforeGuard ++ guarding) (commit keptHead) := by
  repeat first | exact .here | refine .there ?_

def beforeKept : Fleet :=
  followAll differing "b" (beforeGuard ++ guarding)

theorem list_announced (path : RemotePath) : path ∈ [.head "a", .pendingHead "a", .pendingHead "b"] ↔
    path.isHead ∧ ((followAll differing "b" beforeGuard).files path).isSome := by
  change _ ↔ _ ∧ (Function.update (Function.update afterFirst.files (.pendingHead "b") _)
    (.snapshot "rb") _ path).isSome
  rw [files_afterFirst]
  cases path <;> simp [Function.update_apply, RemotePath.isHead]
  grind

theorem evolves_resolving : Evolves (S := fleetSystem fun _ => True) "b" differing
    (beforeGuard ++ guarding) beforeKept := by
  repeat first
    | exact .nil
    | refine .cons ⟨_, .other rfl, rfl⟩ ?_
    | refine .cons ⟨_, .read, rfl⟩ ?_
    | refine .cons ⟨_, .write, rfl⟩ ?_
    | refine .cons ⟨_, .decodeSnapshot rfl, rfl⟩ ?_
    | refine .cons ⟨_, .build ⟨"", _, 0, rfl⟩ ⟨rfl, List.not_mem_nil⟩, rfl⟩ ?_
    | refine .cons ⟨_, .list list_afterFirst, rfl⟩ ?_
    | refine .cons ⟨_, .list list_announced, rfl⟩ ?_

abbrev Everything : System CloudSyncError Answer :=
  fleetSystem fun _ => True

theorem reachable_resolving : ∃ sessions, Reachable (S := Everything) Fleet.Initial
    ⟨differing, sessions⟩ ∧ ReflTransGen (Step (S := Everything)) ⟨differing, sessions⟩
      ⟨beforeKept, Function.update sessions "b" (some ⟨resolving, beforeGuard ++ guarding⟩)⟩ := by
  have ⟨sessions, hn, hr⟩ := @reachable_afterFirst (fun _ => True) trivial
  have hm : Fleet.Edits afterFirst differing := ⟨"b", ⟨(2 : Nat), unsynced⟩, rfl, rfl⟩
  exact ⟨sessions, hr.step (.move hm),
    steps_asks hn ⟨trivial, rfl, rfl⟩ evolves_resolving asks_resolving⟩

theorem resolution_publishes_what_was_shown_sample : ∃ g : RemoteSyncPointer,
    commit keptHead = .write (.head "b") (SnapshotFormat.encodeHead ⟨"b", some g, none⟩) ∧
    g.dominates firstHead := by
  have ⟨sessions, hr, hs⟩ := reachable_resolving
  have ⟨_, g, ho, hb, hd, _⟩ := resolution_publishes_what_was_shown hr hs
    (fun revision hm => .inl ⟨firstHead, .head _, (List.mem_singleton.mp hm).symm⟩)
    (Function.update_self ..) asks_resolving
  exact ⟨g, by rw [← hb]; rfl, hd firstHead (.inl (.head _)) (.head _)⟩

-- The user can edit their documents after the guard has looked at them.
theorem resolution_races_with_edit : ∃ s : Everything.Config, Reachable Fleet.Initial s ∧
    s.sessions "b" = some ⟨resolving, beforeGuard ++ guarding⟩ ∧
    Asks resolving.program (beforeGuard ++ guarding) (commit keptHead) ∧
    ∀ built, (s.world.stores "b").Builds "b" built →
      built.syncContentHash ≠ .ok keepLocal.localContentHash := by
  have ⟨sessions, hr, hs⟩ := reachable_resolving
  have hm : Fleet.Edits beforeKept (beforeKept.save "b" ⟨(3 : Nat), unsynced⟩) :=
    ⟨"b", ⟨(3 : Nat), unsynced⟩, rfl, rfl⟩
  refine ⟨_, (hr.steps hs).step (.move hm), ?_, asks_resolving, ?_⟩
  · exact Function.update_self "b" _ sessions
  rintro built ⟨name, revision, now, hb⟩
  cases hb
  change Except.ok ("entities-v1:" ++ sampleHash 3) ≠ .ok ("entities-v1:" ++ sampleHash 2)
  decide

end SnapshotFormat.Sample

end NyaTerm

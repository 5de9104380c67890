import NyaTerm.Cloud.Theorems.World

open List

open Program System

namespace NyaTerm

open CloudSync RemoteHeads

variable {head : RemoteSyncPointer}

variable [SnapshotFormat]

-- On which terms an operation runs.
def CloudCall.terms (call : CloudCall) : Terms where
  device := call.options.deviceId
  state := call.state
  careful := call.operation.isCareful
  shown r := match call.operation with
    | .resolve request => r.observedRevisions = request.observedRevisions
    | _ => True

theorem CloudCall.obeys_program (call : CloudCall) : call.program.Obeys (Permits call.terms) [] := by
  have ⟨options, state, operation⟩ := call
  cases operation
  case push force =>
    refine obeys_weaken (obeys_push force) fun h => ?_
    simpa [CloudOperation.isCareful] using h
  case pull force =>
    refine obeys_weaken (obeys_pull force) fun h => ?_
    simpa [CloudOperation.isCareful] using h
  case check allowAutoPull => exact obeys_check allowAutoPull
  case autoSync autoPush allowAutoPull => exact obeys_autoSync autoPush allowAutoPull
  case resolve request =>
    exact obeys_weaken (fun t c hc => (obeys_resolve t c hc).1) Bool.false_ne_true
  case recover => exact obeys_weaken obeys_recover Bool.false_ne_true
  case cleanup latest => exact obeys_cleanupSyncSnapshots latest

namespace Fleet

variable [SnapshotCodec] {w w' : Fleet} {device : String} {call : CloudCall} {t u : CloudTrace}

omit [SnapshotFormat] in
theorem counts_eq {pointer : RemoteSyncPointer} (h : pointer.syncClock = some clock) :
    pointer.counts = clock.count := by
  simp [RemoteSyncPointer.counts, h]

-- The published heads that a new one builds upon.
def upon (w : Fleet) (r : RemoteHeads) (previous : Option SnapshotSyncClock) :
    Set RemoteSyncPointer :=
  { head | head ∈ w.published ∧ (head ∈ r.heads ∨ head.syncClock = previous) }

theorem counts_le_mergedClock (hw : w.Sound) (h : head ∈ w.upon r previous) :
    head.counts ≤ (r.mergedClock previous).count := by
  have ⟨hp, hh⟩ := h
  have ⟨clock, hc⟩ := Option.isSome_iff_exists.mp (hw.clocked head hp)
  rw [counts_eq hc]
  rcases hh with hh | hh
  · exact le_mergedClock.2 head hh clock hc
  · exact le_mergedClock.1 clock (hh.symm.trans hc)

theorem known_of_mem_heads (hw : w.Sound) (hl : t ⊆ w.log device) (hi : u <:+: t)
    (hr : Runs readHeads u (.ok r)) (hh : head ∈ r.heads) : w.Known head :=
  known_of_readable hw hl ((readable_of_mem_heads hr hh).mono hi.subset)

theorem exists_current (hw : w.Sound) (hh : head ∈ w.published) :
    ∃ later, w.current head.deviceId = some later ∧ head.counts ≤ later.counts := by
  have ⟨later, hc⟩ : ∃ later, w.current head.deviceId = some later := by
    rw [← Option.isSome_iff_exists, current, find?_isSome]
    exact ⟨head, hh, by simp⟩
  exact ⟨later, hc, hw.history.le_newest hc hh rfl⟩

-- A head file that was read while looking at the heads has been taken into account.
omit [SnapshotCodec] in
theorem mem_heads_of_read (owner : String) {P : RemoteSyncPointer → Prop}
    (hr : Runs readHeads u (.ok r))
    (hl : ∀ paths, Got u (.listFiles .heads) paths → .head owner ∈ paths)
    (hg : ∀ found, Got u (.readIfExists (.head owner)) found → ∃ head,
      found = some (SnapshotFormat.encodeHead ⟨owner, some head, none⟩) ∧ P head) :
    ∃ head ∈ r.heads, P head := by
  have ⟨paths, records, hrs⟩ := runs_readHeads hr
  have ⟨found, hf, hv⟩ := hrs.read.visited _ (hl paths hrs.listed) rfl
  obtain ⟨head, rfl, hp⟩ := hg found hf
  have ⟨record, hm, hd, _⟩ := hv _ rfl
  have he := DeviceHead.decodeHead_of_decode hd
  rw [SnapshotFormat.decodeHead_encodeHead] at he
  obtain rfl := Option.some.inj he
  refine ⟨head, (hrs.collects.mem_heads head).mpr (.inl ?_), hp⟩
  exact mem_filterMap.mpr ⟨_, hm, rfl⟩

section

variable (hw : w.Sound) (ha : w.Attends device call t)
include hw ha

section

variable (hu : Unwritten t) (hi : u <:+: t) (hr : Runs readHeads u (.ok r))
include hu hi hr

theorem current_mem_heads (hc : w.current device = some head) :
    head ∈ r.heads := by
  have hf := hw.heads device
  rw [hc, Option.map_some] at hf
  have ⟨_, hm, rfl⟩ : ∃ h ∈ r.heads, h = head := by
    refine mem_heads_of_read device hr (fun paths hl => ?_) fun found hg => ⟨head, ?_, rfl⟩
    · exact ha.listed hu paths (hl.mono hi.subset) (by simp [hf])
    · rw [ha.read hu found (hg.mono hi.subset), hf]
  exact hm

theorem extends_of_nextClock
    (hp : previous = call.state.lastSyncedClock ∨ previous = none)
    (hn : r.nextClock previous device = .ok clock) (hd : g.deviceId = device)
    (hc : g.syncClock = some clock) :
    VectorClock.Extends (·.deviceId) (·.counts) w.published (w.upon r previous) g := by
  have ht := nextClock_eq_ok hn
  subst hd
  have hg := counts_eq hc
  exact {
    earlier := fun e he => he.1
    above := fun e he => hg ▸ (counts_le_mergedClock hw he).trans ht.le
    ticks := fun e he => by
      rw [hg, ht.own]
      exact Nat.lt_succ_of_le (counts_le_mergedClock hw he _)
    pos := by
      rw [hg, ht.own]
      exact Nat.succ_pos _
    joined := by
      intro d hd
      rw [hg, ht.others d hd, count_mergedClock]
      rcases SnapshotSyncClock.count_foldl_merge (r.heads.filterMap (·.syncClock))
        (previous.getD .empty) d with h | ⟨c, hm, h⟩
      · rw [h]
        cases previous
        case none => exact .inl rfl
        case some c =>
          have ⟨head, hm, hc, _⟩ := ha.baseline.clock c (by simpa [eq_comm] using hp)
          exact .inr ⟨head, ⟨hm, .inr hc⟩, by rw [counts_eq hc]; rfl⟩
      · have ⟨head, hm, hc⟩ := mem_filterMap.mp hm
        rw [h, ← counts_eq hc]
        have hk := (known_of_mem_heads hw ha.logged hi hr hm).published hc
        exact .inr ⟨head, ⟨hk, .inl hm⟩, le_rfl⟩
    own := by
      intro e he hd
      have ⟨head, hf, hle⟩ := exists_current hw he
      rw [hd] at hf
      have hm : head ∈ w.published := mem_of_find?_eq_some hf
      exact ⟨head, ⟨hm, .inl (current_mem_heads hw ha hu hi hr hf)⟩, hle⟩
  }

end

theorem extends_of_commits
    (hd : g.deviceId = device) (h : Commits t call.terms g) :
    ∃ known, VectorClock.Extends (·.deviceId) (·.counts) w.published known g := by
  have ⟨_, previous, clock, ⟨u, r, hi, hr, he⟩, _, hp, hn, hc⟩ := h.ticks
  rw [he] at hn
  exact ⟨_, extends_of_nextClock hw ha h.first hi hr hp (ha.owner ▸ hn) hd hc⟩

theorem owner_of_commits
    (h : Commits t call.terms g) : g.deviceId = device ∧ w.Issued device g.revisionId := by
  rcases h.origin with ⟨built, hb, hd, hr⟩ | ⟨hd, hr⟩
  · have hs : _ ∧ _ := hw.logs device _ (ha.logged hb)
    exact ⟨hd.trans hs.1, hr ▸ hs.2⟩
  · exact ⟨hd.trans ha.owner, hw.logs device _ (ha.logged hr)⟩

end

omit [SnapshotCodec] in
theorem unused_of_commits (ha : w.Attends device call t) (h : Commits t call.terms g) :
    ∀ head ∈ w.published, head.revisionId ≠ g.revisionId := by
  refine ha.unused h.first g.revisionId ?_
  rcases h.origin with ⟨built, hb, _, hr⟩ | ⟨_, hr⟩
  · exact .inr ⟨built, hb, hr.symm⟩
  · exact .inl hr

section Step

variable {c : CloudRequest} {x : Except CloudSyncError (Answer c)}

-- A device has put a new head in the place of its old one.
structure Replaces (w w' : Fleet) (device : String) (g : RemoteSyncPointer) : Prop where
  published : w'.published = g :: w.published
  own : w'.files (.head device) = some (SnapshotFormat.encodeHead ⟨device, some g, none⟩)
  others : ∀ owner ≠ device, w'.files (.head owner) = w.files (.head owner)

structure SameHeads (w w' : Fleet) : Prop where
  published : w'.published = w.published
  files : ∀ owner, w'.files (.head owner) = w.files (.head owner)

theorem Effects.heads (hw : w.Sound) (ha : w.Attends device call t) (hp : Permits call.terms t c)
    (h : w.Effects device c x w') : w.SameHeads w' ∨ ∃ g, Commits t call.terms g ∧
      g.deviceId = device ∧ w.Replaces w' device g ∧ ¬ c.isHeadless := by
  by_cases hc : c.isHeadless
  · refine .inl ⟨h.published_of_headless hc, fun owner => h.files_head hp ?_⟩
    rintro bytes rfl
    cases hc
  · cases hp
    case head g _ hg =>
      have ⟨rfl, _⟩ := owner_of_commits hw ha hg
      cases h
      case failed => exact .inl ⟨rfl, fun _ => rfl⟩
      case write =>
        refine .inr ⟨g, hg, rfl, ⟨?_, Function.update_self .., fun owner ho => ?_⟩, hc⟩
        · simp [put, SnapshotFormat.decodeHead_encodeHead]
        · exact Function.update_of_ne (by simpa using ho) ..
      case other hc => cases hc
    case staging h => exact absurd (CloudRequest.isHeadless_of_isStaging h) hc
    all_goals exact absurd rfl hc

theorem Effects.log (h : w.Effects device c x w') : w'.log = w.log := by
  cases h <;> rfl

theorem head_owner (hw : w.Sound) (ha : w.Attends device call t) (hp : Permits call.terms t c)
    (owner : String) (bytes : Bytes) (hc : c = .write (.head owner) bytes) : owner = device := by
  subst hc
  cases hp
  case head g _ hg => exact (owner_of_commits hw ha hg).1
  case staging h => cases h

omit [SnapshotCodec] in
theorem mem_record :
    e ∈ (w.record device event).log owner ↔ e ∈ w.log owner ∨ (owner = device ∧ e = event) := by
  by_cases ho : owner = device
  · subst ho
    simp [record]
  · simp [record, ho]

theorem Sound.answers (hw : w.Sound) (ha : w.Attends device call t)
    (hp : Permits call.terms t c) (h : w.Answers device c x w') : w'.Sound := by
  obtain ⟨w₁, h, rfl⟩ := h
  have hg₁ := grows_record w₁ device ⟨c, x⟩
  have hg := h.grows.trans hg₁
  have hf := h.files hw ha.logged hp
  have hh := h.heads hw ha hp
  exact {
    history := by
      rcases hh with hh | ⟨g, hc, hd, hr, _⟩
      · exact hh.published ▸ hw.history
      · have ⟨known, he⟩ := extends_of_commits hw ha hd hc
        exact hr.published ▸ hw.history.cons he
    clocked := by
      change ∀ head ∈ w₁.published, _
      rcases hh with hh | ⟨g, hc, _, hr, _⟩
      · exact hh.published ▸ hw.clocked
      · have ⟨_, _, _, _, _, _, _, hc⟩ := hc.ticks
        rw [hr.published, forall_mem_cons]
        exact ⟨by simp [hc], hw.clocked⟩
    revisions := by
      change (w₁.published.map _).Nodup
      rcases hh with hh | ⟨g, hc, _, hr, _⟩
      · exact hh.published ▸ hw.revisions
      · rw [hr.published, map_cons, nodup_cons, mem_map]
        refine ⟨?_, hw.revisions⟩
        rintro ⟨head, hm, he⟩
        exact unused_of_commits ha hc head hm he
    issued := by
      change ∀ head ∈ w₁.published, _
      rcases hh with hh | ⟨g, hc, hd, hr, _⟩
      · exact hh.published ▸ fun head hm => (hw.issued head hm).mono hg
      · rw [hr.published, forall_mem_cons]
        refine ⟨?_, fun head hm => (hw.issued head hm).mono hg⟩
        exact hd ▸ (owner_of_commits hw ha hc).2.mono hg
    heads := by
      intro owner
      change w₁.files _ = (w₁.published.find? _).map _
      rcases hh with hh | ⟨g, _, hd, hr, _⟩
      · rw [hh.published, hh.files]
        exact hw.heads owner
      · rw [hr.published]
        by_cases ho : owner = device
        · subst ho
          simp [hr.own, hd]
        · rw [hr.others owner ho, hw.heads owner, current]
          have hn : g.deviceId ≠ owner := hd ▸ Ne.symm ho
          simp [hn]
    files := fun path bytes hb => (hf path bytes hb).mono hg₁
    logs := by
      intro owner event he
      rcases mem_record.mp he with he | ⟨rfl, rfl⟩
      · rw [h.log] at he
        exact (hw.logs owner event he).mono hg
      · exact (h.tells hw hf (head_owner hw ha hp)).mono hg₁
    receipts := fun owner pointer receipt hr =>
      (h.receipts hw ha.logged hp owner pointer receipt hr).mono hg₁
    baselines := fun owner => (h.baselines hw ha.logged ha.baseline hp owner).mono hg₁
  }

theorem Effects.list_iff (h : w.Effects device (.listFiles .heads) (.ok paths) w') :
    path ∈ paths ↔ path.isHead ∧ (w.files path).isSome := by
  cases h
  case list hl => exact hl path
  case other hc => cases hc

theorem Effects.read_eq (h : w.Effects device (.readIfExists path) (.ok found) w') :
    found = w.files path := by
  cases h
  case read => rfl
  case other hc => cases hc

theorem Effects.fresh_newRevision (h : w.Effects device .newRevision (.ok revision) w') :
    w.Fresh revision := by
  cases h
  case newRevision hf => exact hf
  case other hc => cases hc

theorem Effects.fresh_buildSnapshot (h : w.Effects device .buildSnapshot (.ok built) w') :
    w.Fresh built.revisionId := by
  cases h
  case build _ hf => exact hf
  case other hc => cases hc

theorem Fresh.unused (hw : w.Sound) (hf : w.Fresh revision) :
    ∀ head ∈ w.published, head.revisionId ≠ revision := by
  rintro head hm rfl
  simp [(hw.issued head hm).1, Fresh] at hf

theorem Baseline.published (hb : w.Baseline device state) (hg : w.Grows w') (hw' : w'.Sound)
    (hm : head ∈ w'.published) (hc : state.lastSyncedClock = head.syncClock) :
    head ∈ w.published := by
  have ⟨clock, hs⟩ := Option.isSome_iff_exists.mp (hw'.clocked head hm)
  have ⟨old, ho, hs', _⟩ := hb.clock clock (hc.trans hs)
  rwa [hw'.history.eq_of_clock_eq hm (hg.published.subset ho) (by rw [counts_eq hs, counts_eq hs'])]

theorem Seen.append (hw : w.Sound) (hm : head ∈ w.published) (hs : Seen t head)
    (h : w.Effects device c x w') : Seen (t ++ [⟨c, x⟩]) head := by
  have ⟨later, hc, hle⟩ := exists_current hw hm
  have hf := hw.heads head.deviceId
  rw [hc, Option.map_some] at hf
  constructor
  case listed =>
    intro paths hl
    rcases got_append.mp hl with hl | hl
    · exact hs.listed paths hl
    · cases mem_singleton.mp hl
      exact h.list_iff.mpr ⟨rfl, by simp [hf]⟩
  case read =>
    intro found hl
    rcases got_append.mp hl with hl | hl
    · exact hs.read found hl
    · cases mem_singleton.mp hl
      exact ⟨later, h.read_eq.trans hf, hle⟩

section

variable (hw : w.Sound) (ha : w.Attends device call t) (hp : Permits call.terms t c)
  (h : w.Answers device c x w')
include hw ha hp h

theorem Attends.answers :
    w'.Attends device call (t ++ [⟨c, x⟩]) := by
  have hw' := hw.answers ha hp h
  obtain ⟨w₁, h, rfl⟩ := h
  have hg := h.grows.trans (grows_record w₁ device ⟨c, x⟩)
  have hs (hu : Unwritten (t ++ [⟨c, x⟩])) : Unwritten t ∧ w.SameHeads w₁ := by
    have ⟨hu, hc⟩ := forall_mem_append.mp hu
    refine ⟨hu, (h.heads hw ha hp).resolve_right ?_⟩
    rintro ⟨g, _, _, _, hn⟩
    exact hn (hc _ (mem_singleton.mpr rfl))
  exact {
    owner := ha.owner
    logged := by
      refine append_subset.mpr ⟨Subset.trans ha.logged (hg.log device), ?_⟩
      intro e he
      exact mem_record.mpr (.inr ⟨rfl, mem_singleton.mp he⟩)
    baseline := ha.baseline.mono hg
    seen := by
      intro head hm hc
      have hm := ha.baseline.published hg hw' hm hc
      exact (ha.seen head hm hc).append hw hm h
    listed := by
      intro hu paths hl hf
      have ⟨hut, hsame⟩ := hs hu
      change (w₁.files _).isSome at hf
      rw [hsame.files] at hf
      rcases got_append.mp hl with hl | hl
      · exact ha.listed hut paths hl hf
      · cases mem_singleton.mp hl
        exact h.list_iff.mpr ⟨rfl, hf⟩
    read := by
      intro hu found hl
      have ⟨hut, hsame⟩ := hs hu
      change found = w₁.files _
      rw [hsame.files]
      rcases got_append.mp hl with hl | hl
      · exact ha.read hut found hl
      · cases mem_singleton.mp hl
        exact h.read_eq
    unused := by
      intro hu revision hr
      have ⟨hut, hsame⟩ := hs hu
      change ∀ head ∈ w₁.published, _
      rw [hsame.published]
      rcases hr with hr | ⟨built, hr, rfl⟩
      · rcases got_append.mp hr with hr | hr
        · exact ha.unused hut revision (.inl hr)
        · cases mem_singleton.mp hr
          exact h.fresh_newRevision.unused hw
      · rcases got_append.mp hr with hr | hr
        · exact ha.unused hut _ (.inr ⟨built, hr, rfl⟩)
        · cases mem_singleton.mp hr
          exact h.fresh_buildSnapshot.unused hw
  }

theorem Attends.other {other : String} (ho : other ≠ device) (hs : w.Attends other call' s) :
    w'.Attends other call' s := by
  have hw' := hw.answers ha hp h
  obtain ⟨w₁, h, rfl⟩ := h
  have hg := h.grows.trans (grows_record w₁ device ⟨c, x⟩)
  have hf : w₁.files (.head other) = w.files (.head other) := by
    rcases h.heads hw ha hp with hh | ⟨g, _, _, hr, _⟩
    · exact hh.files other
    · exact hr.others other ho
  exact {
    owner := hs.owner
    logged := Subset.trans hs.logged (hg.log other)
    baseline := hs.baseline.mono hg
    seen := fun head hm hc => hs.seen head (hs.baseline.published hg hw' hm hc) hc
    listed := fun hu paths hl hh => hs.listed hu paths hl (hf ▸ hh)
    read := fun hu found hl => (hs.read hu found hl).trans hf.symm
    unused := by
      intro hu revision hr
      change ∀ head ∈ w₁.published, _
      rcases h.heads hw ha hp with hh | ⟨g, hc, _, hre, _⟩
      · exact hh.published ▸ hs.unused hu revision hr
      · rw [hre.published, forall_mem_cons]
        refine ⟨?_, hs.unused hu revision hr⟩
        rintro rfl
        -- the revision was issued to one of the two devices only
        have hi : w.Issued other g.revisionId := by
          rcases hr with hr | ⟨built, hr, hb⟩
          · exact hw.logs other _ (hs.logged hr)
          · have hl : _ ∧ w.Issued other built.revisionId := hw.logs other _ (hs.logged hr)
            exact hb ▸ hl.2
        have hd := (owner_of_commits hw ha hc).2
        exact ho (Option.some.inj (hi.1.symm.trans hd.1))
  }

end

end Step

theorem Initial.sound (h : w.Initial) : w.Sound where
  history := h.published ▸ .nil
  clocked := by simp [h.published]
  revisions := by simp [h.published]
  issued := by simp [h.published]
  heads device := by simp [h.heads (.head device) rfl, current, h.published]
  files path bytes hb := {
    head := fun hp => by simp [h.heads path hp] at hb
    latest := by
      rintro rfl pointer hd
      exact .inr (h.latest bytes pointer hb hd)
  }
  logs device := by simp [h.log]
  receipts device := by simp [h.receipts]
  baselines device := {
    clock := by simp [h.clock]
    revision := fun revision hr => .applied (h.revision device revision hr).1
  }

omit [SnapshotCodec] in
theorem grows_save (w : Fleet) (device : String) (store : LocalStore) :
    w.Grows (w.save device store) :=
  ⟨suffix_rfl, fun _ _ h => h, fun _ _ h => h, fun _ _ h => h, rfl⟩

theorem Sound.edits {store : LocalStore} (hw : w.Sound) (h : (w.stores device).Edits store) :
    (w.save device store).Sound where
  history := hw.history
  clocked := hw.clocked
  revisions := hw.revisions
  issued := hw.issued
  heads := hw.heads
  files path bytes hb := (hw.files path bytes hb).mono (grows_save ..)
  logs owner event he := (hw.logs owner event he).mono (grows_save ..)
  receipts := hw.receipts
  baselines owner := by
    have hs : ((w.save device store).stores owner).state = (w.stores owner).state := by
      by_cases ho : owner = device
      · subst ho
        simpa [save, LocalStore.Edits] using h
      · simp [save, ho]
    rw [hs]
    exact (hw.baselines owner).mono (grows_save ..)

theorem keeps_fleetSystem {allowed : CloudOperation → Prop} :
    Keeps (S := fleetSystem allowed) Initial Sound
    fun w device session => w.Attends device session.op session.trace where
  init := Initial.sound
  start := by
    rintro w device call hw ⟨_, ho, hs⟩
    exact {
      owner := ho
      logged := nil_subset _
      baseline := hs ▸ hw.baselines device
      seen := fun _ _ _ => ⟨fun _ h => absurd h not_got_nil, fun _ h => absurd h not_got_nil⟩
      listed := fun _ _ h => absurd h not_got_nil
      read := fun _ _ h => absurd h not_got_nil
      unused := by
        rintro _ _ (h | ⟨_, h, _⟩)
        all_goals exact absurd h not_got_nil
    }
  call := by
    intro w device call t c x w' hw ha hc h
    have hp := call.obeys_program t c hc
    exact ⟨hw.answers ha hp h, ha.answers hw hp h⟩
  other := by
    intro w device call t c x w' other s hw ha hc h ho hs
    exact Attends.other hw ha (call.obeys_program t c hc) h ho hs
  move := by
    rintro w _ hw ⟨device, store, hs, rfl⟩
    refine ⟨hw.edits hs, fun owner session ha => ?_⟩
    exact {
      owner := ha.owner
      logged := ha.logged
      baseline := ha.baseline.mono (grows_save ..)
      seen := ha.seen
      listed := ha.listed
      read := ha.read
      unused := ha.unused
    }

end Fleet

end NyaTerm

import NyaTerm.Cloud.Theorems.Clock

open List

open Std Relation Program

namespace NyaTerm

variable {compatibility : Option RemoteSyncPointer}

namespace RemoteSyncPointer

variable {p : RemoteSyncPointer}

theorem dominates_of_clocks (hp : p.syncClock = some c) (hq : q.syncClock = some d) :
    p.dominates q ↔ c.strictlyDominates d := by
  simp [dominates, hp, hq]

theorem transGen_dominates (h : TransGen (fun p q => dominates p q) p q) :
    ∃ c, p.syncClock = some c ∧ ∀ d ∈ q.syncClock, c.strictlyDominates d := by
  induction h
  case single q h =>
    cases hp : p.syncClock
    case none => simp [dominates, hp] at h
    case some c =>
      refine ⟨c, rfl, fun d hd => ?_⟩
      rwa [dominates_of_clocks hp hd] at h
  case tail q o _ h hi =>
    have ⟨c, hc, hd⟩ := hi
    refine ⟨c, hc, fun e he => ?_⟩
    cases hq : q.syncClock
    case none => simp [dominates, hq] at h
    case some d =>
      rw [dominates_of_clocks hq he] at h
      exact SnapshotSyncClock.strictlyDominates_trans (hd d hq) h

theorem not_transGen_dominates_self : ¬ TransGen (fun p q => dominates p q) p p := by
  intro h
  have ⟨c, hc, hd⟩ := transGen_dominates h
  exact SnapshotSyncClock.strictlyDominates_irrefl (hd c hc)

end RemoteSyncPointer

namespace RemoteHeads

variable {heads : List RemoteSyncPointer} {head : RemoteSyncPointer}

theorem mem_maximalOf : head ∈ maximalOf heads ↔
    head ∈ heads ∧ ∀ other ∈ heads, ¬ other.dominates head := by
  simp [maximalOf]

theorem exists_maximal (h : head ∈ heads) :
    ∃ top ∈ maximalOf heads, head = top ∨ TransGen (fun p q => p.dominates q) top head := by
  let r (p q : { q // q ∈ heads }) : Prop := TransGen (fun p q => p.dominates q) p.1 q.1
  have : Std.Irrefl r := ⟨fun _ => RemoteSyncPointer.not_transGen_dominates_self⟩
  have hw : WellFounded r := Finite.wellFounded_of_trans_of_irrefl r
  induction hm : (⟨head, h⟩ : { q // q ∈ heads }) using hw.induction generalizing head
  case h _ hi =>
    obtain rfl := hm.symm
    by_cases ht : ∃ other ∈ heads, other.dominates head
    case neg =>
      refine ⟨head, mem_maximalOf.mpr ⟨h, fun other ho hd => ht ⟨other, ho, hd⟩⟩, .inl rfl⟩
    case pos =>
      have ⟨other, ho, hd⟩ := ht
      have ⟨top, htop, h⟩ := hi ⟨other, ho⟩ (.single hd) ho rfl
      refine ⟨top, htop, .inr ?_⟩
      rcases h with rfl | h
      · exact .single hd
      · exact h.tail hd

theorem getElem?_unique (h : heads.foldlM addHead ∅ = .ok unique) :
    unique[revision]? = some head ↔ head ∈ heads ∧ head.revisionId = revision := by
  suffices ∀ (m : BTreeMap String RemoteSyncPointer) (heads seen : List RemoteSyncPointer),
      (∀ revision head, m[revision]? = some head ↔ head ∈ seen ∧ head.revisionId = revision) →
      heads.foldlM addHead m = .ok unique →
      (unique[revision]? = some head ↔ head ∈ seen ++ heads ∧ head.revisionId = revision) by
    simpa using this ∅ heads [] (by simp) h
  intro m heads seen hm h
  induction heads generalizing m seen
  case nil =>
    obtain rfl := Fallible.pure_eq_ok.mp h
    simpa using hm revision head
  case cons x heads hi =>
    rw [foldlM_cons, Fallible.bind_eq_ok] at h
    have ⟨m', hm', h⟩ := h
    rw [addHead] at hm'
    split at hm'
    case isTrue => cases hm'
    case isFalse hx =>
      rw [append_cons seen x heads]
      refine hi _ (seen ++ [x]) (fun revision head => ?_) h
      grind

-- What is known of heads that were put together.
structure Collects (heads : List RemoteSyncPointer) (compatibility : Option RemoteSyncPointer)
    (r : RemoteHeads) : Prop where
  latest : r.compatibility = compatibility
  mem_heads : ∀ head, head ∈ r.heads ↔ head ∈ heads ∨ head ∈ compatibility
  concurrent : r.concurrent = false ↔ r.maximal.length ≤ 1
  selected : ∀ head ∈ r.selected, head ∈ r.maximal
  nonempty : r.selected = none → r.heads = []

theorem ofHeads_eq_ok (h : ofHeads heads compatibility = .ok r) :
    Collects heads compatibility r := by
  simp only [ofHeads, Fallible.bind_eq_ok, Fallible.pure_eq_ok] at h
  obtain ⟨unique, hu, rfl⟩ := h
  have hm (head) : head ∈ unique.toList.map (·.2) ↔ head ∈ heads ∨ head ∈ compatibility := by
    simp only [mem_map, Prod.exists, exists_eq_right,
      ExtTreeMap.mem_toList_iff_getElem?_eq_some, getElem?_unique hu]
    simp
  exact {
    latest := rfl
    mem_heads := hm
    concurrent := by simp [maximal]
    selected := by
      intro head hs
      simp only [Option.mem_def, Option.or_eq_some_iff] at hs
      rcases hs with hs | ⟨_, hs⟩
      · obtain ⟨_, _, hs⟩ := Option.bind_eq_some_iff.mp hs
        exact mem_of_find?_eq_some hs
      · exact mem_of_getLast? hs
    nonempty := by
      intro hn
      simp only [Option.or_eq_none_iff, getLast?_eq_none_iff] at hn
      rw [eq_nil_iff_forall_not_mem]
      intro head hh
      obtain ⟨top, ht, _⟩ := exists_maximal hh
      rw [hn.2] at ht
      cases ht
  }

-- Heads that are not concurrent have one maximal element, and it is the one that is selected.
theorem Collects.selected_dominates (hr : Collects heads compatibility r)
    (hc : r.concurrent = false) (h : head ∈ r.heads) :
    ∃ top, r.selected = some top ∧
      (head = top ∨ TransGen (fun p q => p.dominates q) top head) := by
  have ⟨top, ht, hd⟩ := exists_maximal h
  refine ⟨top, ?_, hd⟩
  cases hs : r.selected
  case none => simp [hr.nonempty hs] at h
  case some s =>
    have hl := hr.concurrent.mp hc
    have ⟨x, hx⟩ : ∃ x, r.maximal = [x] := by
      rw [← length_eq_one_iff]
      have := length_pos_of_mem ht
      exact Nat.le_antisymm hl this
    have h₁ := hr.selected s hs
    have h₂ : top ∈ r.maximal := ht
    rw [hx, mem_singleton] at h₁ h₂
    rw [h₁, h₂]

end RemoteHeads

theorem DeviceHead.decodeHead_of_decode [SnapshotFormat] {bytes : Bytes}
    (h : DeviceHead.decode bytes = .ok record) : SnapshotFormat.decodeHead bytes = some record := by
  unfold DeviceHead.decode at h
  cases hd : SnapshotFormat.decodeHead bytes
  case none =>
    simp only [hd] at h
    split at h <;> cases h
  case some found =>
    simp only [hd] at h
    split at h
    · cases h
    · split at h
      · split at h
        · cases h
        · split at h
          · have ⟨_, _, h⟩ := Fallible.bind_eq_ok.mp h
            rw [Fallible.pure_eq_ok.mp h]
          · cases h
      · rw [Fallible.pure_eq_ok.mp h]

namespace CloudSync

variable [SnapshotFormat] {t : CloudTrace}

-- This record is what was read at its place.
def Record (t : CloudTrace) (record : DeviceHead) : Prop :=
  ∃ bytes, Got t (.readIfExists record.path) (some bytes) ∧ DeviceHead.decode bytes = .ok record

-- The records are what the listed files hold, each of them where it belongs.
structure ReadsRecords (t : CloudTrace) (paths : List RemotePath) (records : List DeviceHead) :
    Prop where
  visited : ∀ path ∈ paths, path.isHead → ∃ found, Got t (.readIfExists path) found ∧
    ∀ bytes ∈ found, ∃ record ∈ records, DeviceHead.decode bytes = .ok record ∧ record.path = path
  sound : ∀ record ∈ records, Record t record
  complete : ∀ path bytes, path.isHead → Got t (.readIfExists path) (some bytes) →
    ∃ record ∈ records, DeviceHead.decode bytes = .ok record

theorem Record.mono (h : Record t record) (hu : t ⊆ u) : Record u record :=
  h.imp fun _ h => ⟨h.1.mono hu, h.2⟩

namespace ReadsRecords

variable {paths : List RemotePath} {records : List DeviceHead}

section

variable (h : ReadsRecords t paths records)
include h

theorem append {s u : CloudTrace}
    (hr : ∀ e ∈ s ++ u, ∀ path, path.isHead → e.1 ≠ .readIfExists path) :
    ReadsRecords (s ++ t ++ u) paths records where
  visited q hq hh := (h.visited q hq hh).imp fun _ hf => ⟨hf.1.right.left, hf.2⟩
  sound record hm := (h.sound record hm).mono (by simp)
  complete q bytes hh hg := by
    simp only [got_append] at hg
    rcases hg with (hg | hg) | hg
    · exact absurd rfl (hr _ (mem_append_left _ hg) q hh)
    · exact h.complete q bytes hh hg
    · exact absurd rfl (hr _ (mem_append_right _ hg) q hh)

theorem missing :
    ReadsRecords (⟨.readIfExists path, .ok none⟩ :: t) (path :: paths) records where
  visited := by
    simp only [forall_mem_cons]
    exact ⟨fun _ => ⟨none, .head _, nofun⟩,
      fun q hq hh => (h.visited q hq hh).imp fun _ hf => ⟨.tail _ hf.1, hf.2⟩⟩
  sound record hm := (h.sound record hm).mono (by simp)
  complete q bytes hh hg := by
    rcases got_cons.mp hg with hg | hg
    · cases hg
    · exact h.complete q bytes hh hg

theorem found {bytes : Bytes}
    (hd : DeviceHead.decode bytes = .ok record) :
    ReadsRecords (⟨.readIfExists record.path, .ok (some bytes)⟩ :: t) (record.path :: paths)
      (record :: records) where
  visited := by
    simp only [forall_mem_cons]
    refine ⟨fun _ => ⟨some bytes, .head _, ?_⟩, fun q hq hh => ?_⟩
    · rintro _ ⟨⟩
      exact ⟨record, by simp, hd, rfl⟩
    · have ⟨found, hf, hr⟩ := h.visited q hq hh
      exact ⟨found, .tail _ hf, fun b hb => (hr b hb).imp fun r hr => ⟨by simp [hr.1], hr.2⟩⟩
  sound := by
    simp only [forall_mem_cons]
    exact ⟨⟨bytes, .head _, hd⟩, fun r hm => (h.sound r hm).mono (by simp)⟩
  complete q found hh hg := by
    rcases got_cons.mp hg with hg | hg
    · cases hg
      exact ⟨record, by simp, hd⟩
    · exact (h.complete q found hh hg).imp fun r hr => ⟨by simp [hr.1], hr.2⟩

end

end ReadsRecords

theorem runs_readRecordsFrom
    (h : Runs (readRecordsFrom paths) t (.ok records)) : ReadsRecords t paths records := by
  induction paths generalizing t records
  case nil =>
    obtain ⟨rfl, rfl⟩ := h
    exact ⟨by simp, by simp, by simp⟩
  case cons path paths hi =>
    rw [readRecordsFrom] at h
    split at h
    case isFalse hp =>
      have hr := hi h
      exact { hr with visited := by simpa [hp] using hr.visited }
    case isTrue hp =>
      obtain ⟨bytes, t, rfl, h₁⟩ := runs_perform_bind_ok.mp h
      cases bytes
      case none =>
        exact (hi h₁).missing
      case some bytes =>
        have ⟨record, hd, h₂⟩ := runs_done_bind_ok.mp h₁
        split at h₂
        case isTrue => simp [runs_fail] at h₂
        case isFalse hr =>
          obtain ⟨records, t, _, rfl, h₃, h₄⟩ := runs_bind_ok.mp h₂
          obtain ⟨rfl, rfl⟩ := runs_pure_ok.mp h₄
          obtain rfl := not_ne_iff.mp hr
          simpa using (hi h₃).found hd

theorem runs_readRecords (h : Runs readRecords t (.ok records)) :
    ∃ paths, Got t (.listFiles .heads) paths ∧ ReadsRecords t paths records := by
  obtain ⟨paths, t, rfl, h₁⟩ := runs_perform_bind_ok.mp h
  refine ⟨paths, .head _, ?_⟩
  split at h₁
  case isTrue => simp [runs_fail] at h₁
  have hr := (runs_readRecordsFrom h₁).append (s := [⟨.listFiles .heads, .ok paths⟩]) (u := [])
  simpa using hr (by simp)

theorem only_loadSyncPointer :
    loadSyncPointer.Only fun c => c = .readIfExists .latest ∨ ∃ bytes, c = .decodePointer bytes := by
  simp [loadSyncPointer, ask]
  rintro _ (_ | _) _ <;> simp

theorem runs_loadSyncPointer {r : Except CloudSyncError (Option RemoteSyncPointer)}
    (h : Runs loadSyncPointer t r) (pointer : RemoteSyncPointer) : r = .ok (some pointer) ↔
      ∃ bytes, Got t (.readIfExists .latest) (some bytes) ∧ Got t (.decodePointer bytes) pointer := by
  rcases runs_perform_bind.mp h with ⟨e, rfl, rfl⟩ | ⟨bytes, t, rfl, h₁⟩
  · simp [Got]
  cases bytes
  case none =>
    obtain ⟨rfl, rfl⟩ := runs_pure.mp h₁
    simp [Got]
  case some bytes =>
    rcases runs_perform_bind.mp h₁ with ⟨e, rfl, rfl⟩ | ⟨p, t, rfl, h₂⟩
    · simp [Got]
    · obtain ⟨rfl, rfl⟩ := runs_pure.mp h₂
      simp [Got, eq_comm]

theorem only_readRecordsFrom (paths : List RemotePath) :
    (readRecordsFrom paths).Only fun c => ∃ path, path.isHead ∧ c = .readIfExists path := by
  induction paths
  case nil => simp [readRecordsFrom]
  case cons path paths hi =>
    simp [readRecordsFrom, ask, hi]
    refine fun hp => ⟨hp, ?_⟩
    rintro _ (_ | _) _ <;> simp [hi]

theorem only_readRecords : readRecords.Only fun c =>
    c = .listFiles .heads ∨ ∃ path, path.isHead ∧ c = .readIfExists path := by
  simp [readRecords, ask]
  exact fun _ paths _ _ => (only_readRecordsFrom paths).mono fun _ => .inr

theorem runs_readCompatibility
    (h : Runs (readCompatibility heads) t (.ok compatibility)) (pointer : RemoteSyncPointer) :
    compatibility = some pointer ↔ ∃ bytes, Got t (.readIfExists .latest) (some bytes) ∧
      Got t (.decodePointer bytes) pointer := by
  obtain ⟨r, t, _, rfl, h₁, h₂⟩ := runs_bind_ok.mp h
  have h₃ := runs_attempt_ok.mp h₁
  have hl := runs_loadSyncPointer h₃ pointer
  cases r
  case ok =>
    obtain ⟨rfl, rfl⟩ := runs_pure_ok.mp h₂
    simpa using hl
  case error e =>
    change Runs (if _ then _ else _) .. at h₂
    split at h₂
    case isTrue =>
      obtain ⟨rfl, rfl⟩ := runs_pure_ok.mp h₂
      simpa using hl
    case isFalse => simp [runs_fail] at h₂

theorem only_readCompatibility :
    (readCompatibility heads).Only fun c =>
      c = .readIfExists .latest ∨ ∃ bytes, c = .decodePointer bytes := by
  simp [readCompatibility, only_loadSyncPointer]
  rintro _ (_ | _) _ <;> simp

-- The heads are those of the devices that are listed, and the shared pointer if it can be read.
structure ReadsHeads (t : CloudTrace) (paths : List RemotePath) (records : List DeviceHead)
    (r : RemoteHeads) : Prop where
  listed : Got t (.listFiles .heads) paths
  read : ReadsRecords t paths records
  shared : ∀ pointer, r.compatibility = some pointer ↔ ∃ bytes,
    Got t (.readIfExists .latest) (some bytes) ∧ Got t (.decodePointer bytes) pointer
  collects : RemoteHeads.Collects (records.filterMap (·.committed)) r.compatibility r

theorem runs_readHeads (h : Runs readHeads t (.ok r)) :
    ∃ paths records, ReadsHeads t paths records r := by
  obtain ⟨heads, t₁, t₂, rfl, h₁, h₂⟩ := runs_bind_ok.mp h
  obtain ⟨records, h₃, rfl⟩ := runs_bind_pure_ok.mp h₁
  have ⟨compatibility, h₄, hr⟩ := runs_bind_done_ok.mp h₂
  have ⟨paths, hp, hrec⟩ := runs_readRecords h₃
  have hc := RemoteHeads.ofHeads_eq_ok hr
  obtain rfl := hc.latest
  have hs := only_readRecords.runs h₃
  have hl := only_readCompatibility.runs h₄
  refine ⟨paths, records, ?_⟩
  exact {
    listed := hp.left
    read := by
      refine hrec.append (s := []) fun e he path hh hr => ?_
      rcases hl e he with h | ⟨_, h⟩
      all_goals
        rw [h] at hr
        cases hr
      cases hh
    shared := by
      intro pointer
      rw [runs_readCompatibility h₄ pointer]
      refine exists_congr fun bytes => and_congr ?_ ?_
      all_goals
        rw [got_append, or_iff_right]
        intro hg
        rcases hs _ hg with h | ⟨path, hh, h⟩
        all_goals cases h
      cases hh
    collects := hc
  }

-- The heads that this run has found: what it read as a record of a device, or as the pointer that
-- older clients share.
inductive Readable (t : CloudTrace) (head : RemoteSyncPointer) : Prop
  | device {path bytes record} (hp : path.isHead) (hg : Got t (.readIfExists path) (some bytes))
    (hd : DeviceHead.decode bytes = .ok record) (hc : record.committed = some head)
  | shared {bytes} (hr : Got t (.readIfExists .latest) (some bytes))
    (hd : Got t (.decodePointer bytes) head)

theorem ReadsHeads.mem_heads
    (h : ReadsHeads t paths records r) {head : RemoteSyncPointer} :
    head ∈ r.heads ↔ Readable t head := by
  rw [h.collects.mem_heads, mem_filterMap, Option.mem_def, h.shared]
  constructor
  case mp =>
    rintro (⟨record, hr, hc⟩ | ⟨bytes, hr, hd⟩)
    · have ⟨bytes, hg, hd⟩ := h.read.sound record hr
      refine .device ?_ hg hd hc
      rw [DeviceHead.path]
      split <;> rfl
    · exact .shared hr hd
  case mpr =>
    rintro (⟨hp, hg, hd, hc⟩ | ⟨hr, hd⟩)
    · have ⟨record, hr, hd'⟩ := h.read.complete _ _ hp hg
      obtain rfl := Except.ok.inj (hd.symm.trans hd')
      exact .inl ⟨_, hr, hc⟩
    · exact .inr ⟨_, hr, hd⟩

end CloudSync

section

open RemoteHeads CloudSync

theorem revisions_causally_ordered [SnapshotFormat] :
    (∀ a : SnapshotSyncClock, ¬ a.strictlyDominates a) ∧
    (∀ a b : SnapshotSyncClock, a.strictlyDominates b → ¬ b.strictlyDominates a) ∧
    (∀ a b c : SnapshotSyncClock,
      a.strictlyDominates b → b.strictlyDominates c → a.strictlyDominates c) ∧
    (∀ (r : RemoteHeads) previous device,
      (∃ next, r.nextClock previous device = .ok next ∧
        (∀ clock ∈ previous, next.strictlyDominates clock) ∧
        (∀ head ∈ r.heads, ∀ clock ∈ head.syncClock, next.strictlyDominates clock) ∧
        (∀ latest ∈ r.compatibility, latest.syncClock = none →
          next.legacyRevision = some latest.revisionId)) ∨
      maxCounter ≤ (r.mergedClock previous).count device ∧
        r.nextClock previous device = .error (.remote "cloud sync device counter exhausted") ∨
      ((r.mergedClock previous).advance device).validate ≠ .ok () ∧
        r.nextClock previous device = .error (.remote "invalid cloud sync causal clock")) ∧
    (∀ (t : CloudTrace) r, Runs readHeads t (.ok r) → r.concurrent = false →
      ∀ head, Readable t head → ∃ top, r.selected = some top ∧
        (head = top ∨ TransGen (fun p q => p.dominates q) top head)) := by
  refine ⟨?_, ?_, ?_, ?_, ?_⟩
  case refine_1 => exact fun a => SnapshotSyncClock.strictlyDominates_irrefl
  case refine_2 => exact fun a b => SnapshotSyncClock.strictlyDominates_asymm
  case refine_3 => exact fun a b c => SnapshotSyncClock.strictlyDominates_trans
  case refine_4 =>
    intro r previous device
    rcases nextClock_cases r previous device with ⟨next, h⟩ | h
    · have ht := nextClock_eq_ok h
      exact .inl ⟨next, h, ht.dominates_previous, ht.dominates_head, ht.legacyRevision⟩
    · exact .inr h
  case refine_5 =>
    intro t r h hc head hr
    have ⟨paths, records, hh⟩ := runs_readHeads h
    exact hh.collects.selected_dominates hc (hh.mem_heads.mpr hr)

def SnapshotSyncClock.sample : SnapshotSyncClock := ⟨.ofList [("a", 1)], none⟩

def RemoteSyncPointer.sample : RemoteSyncPointer where
  schemaVersion := 3
  revisionId := "r"
  createdAtMs := 0
  payloadHash := ""
  deviceId := "a"
  appVersion := ""
  syncClock := some .sample

def RemoteSyncPointer.later : RemoteSyncPointer :=
  { RemoteSyncPointer.sample with
    revisionId := "s", deviceId := "b", syncClock := some ⟨.ofList [("a", 1), ("b", 1)], none⟩ }

-- Two devices have published one after the other, and a third one reads their heads.
theorem revisions_causally_ordered_sample : ∃ (_ : SnapshotFormat) (t : CloudTrace) (r : RemoteHeads),
    Runs readHeads t (.ok r) ∧ r.concurrent = false ∧ Readable t .sample ∧
    (∃ top, r.selected = some top ∧
      (.sample = top ∨ TransGen (fun p q => p.dominates q) top .sample)) ∧
    ∃ next, r.nextClock none "c" = .ok next ∧ next.strictlyDominates .sample := by
  let _ : SnapshotFormat := .sample
  let t : CloudTrace := [
    ⟨.listFiles .heads, .ok [.head "a", .head "b"]⟩,
    ⟨.readIfExists (.head "a"), .ok (some (SnapshotFormat.encodeHead ⟨"a", some .sample, none⟩))⟩,
    ⟨.readIfExists (.head "b"), .ok (some (SnapshotFormat.encodeHead ⟨"b", some .later, none⟩))⟩,
    ⟨.readIfExists .latest, .ok none⟩]
  let r : RemoteHeads := ⟨none, some .later, false, [.sample, .later]⟩
  have hr : Runs readHeads t (.ok r) := .call (.call (.call (.call .done)))
  have hh : Readable t .sample := .device rfl (.tail _ (.head _)) rfl rfl
  have ⟨_, _, _, hn, hs⟩ := revisions_causally_ordered
  refine ⟨_, t, r, hr, rfl, hh, hs t r hr rfl _ hh, ?_⟩
  rcases hn r none "c" with ⟨next, h, _, hd, _⟩ | ⟨-, h⟩ | ⟨-, h⟩
  · exact ⟨next, h, hd .sample (.head _) .sample rfl⟩
  · exact absurd h (by decide)
  · exact absurd h (by decide)

end

end NyaTerm

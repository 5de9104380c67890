import NyaTerm.Sync.Theorems.Capture

open Std Causal

namespace NyaTerm.SyncReplica

-- The union of two replicas, as an update of the first.
def join (r q : SyncReplica) (h : r.document.Agrees q.document) : SyncReplica :=
  { r with
    document := r.document.join q.document h
    values := r.values ∪ q.values
    fixed := r.fixed || q.fixed }

-- No digest stands for different values.
def Compatible (r q : SyncReplica) : Prop :=
  ∀ (id : String) v w, r.values[id]? = some v → q.values[id]? = some w → v = w

section Join

variable {r q : SyncReplica}

theorem getElem?_join (hc : r.Compatible q) {id : String} {v} :
    (r.join q h).values[id]? = some v ↔ r.values[id]? = some v ∨ q.values[id]? = some v := by
  simp only [join, ExtTreeMap.getElem?_union, Option.or_eq_some_iff]
  constructor
  case mp => rintro (hv | ⟨-, hv⟩) <;> simp [hv]
  case mpr =>
    rintro (hv | hv)
    case inr => exact .inl hv
    case inl =>
      cases hw : q.values[id]?
      case none => exact .inr ⟨rfl, hv⟩
      case some w => exact .inl (by rw [hc id v w hv hw])

theorem mem_join {id : String} : id ∈ (r.join q h).values ↔ id ∈ r.values ∨ id ∈ q.values := by
  simp [join]

theorem op?_join {i p} : (r.join q h).document.op? i = some p ↔
    r.document.op? i = some p ∨ q.document.op? i = some p :=
  Document.op?_join (h := h)

theorem written_join {f} : (r.join q h).Written f ↔ r.Written f ∨ q.Written f := by
  simp only [Written, Document.mem_keys, op?_join]
  constructor
  case mp =>
    rintro ⟨i, p, hp | hp, hk⟩
    · exact .inl ⟨i, p, hp, hk⟩
    · exact .inr ⟨i, p, hp, hk⟩
  case mpr =>
    rintro (⟨i, p, hp, hk⟩ | ⟨i, p, hp, hk⟩)
    · exact ⟨i, p, .inl hp, hk⟩
    · exact ⟨i, p, .inr hp, hk⟩

theorem visible_join {k i v} : (r.join q h).document.Visible k i v ↔
    (r.document.Visible k i v ∧ ¬q.document.Overwritten i) ∨
      (q.document.Visible k i v ∧ ¬r.document.Overwritten i) :=
  Document.visible_join (h := h)

variable {f d}

theorem Holds.of_join (hd : (r.join q h).Holds f d) : r.Holds f d ∨ q.Holds f d := by
  have ⟨i, v, hv, hr⟩ := hd
  rcases visible_join.mp hv with ⟨hv, _⟩ | ⟨hv, _⟩
  · exact .inl ⟨i, v, hv, hr⟩
  · exact .inr ⟨i, v, hv, hr⟩

theorem Holds.join_left (hd : r.Holds f d)
    (hn : ∀ i p q', r.document.op? i = some p → q.document.op? i ≠ some q') :
    (r.join q h).Holds f d := by
  have ⟨i, v, hv, hr⟩ := hd
  have ⟨p, hp, _⟩ := hv.held
  refine ⟨i, v, visible_join.mpr (.inl ⟨hv, fun ho => ?_⟩), hr⟩
  have ⟨q', hq⟩ := ho.held
  exact hn i p q' hp hq

theorem Holds.join_right (hd : q.Holds f d)
    (hn : ∀ i p q', r.document.op? i = some p → q.document.op? i ≠ some q') :
    (r.join q h).Holds f d := by
  have ⟨i, v, hv, hr⟩ := hd
  have ⟨q', hq, _⟩ := hv.held
  refine ⟨i, v, visible_join.mpr (.inr ⟨hv, fun ho => ?_⟩), hr⟩
  have ⟨p, hp⟩ := ho.held
  exact hn i p q' hp hq

theorem skips_join_left {f} (hs : r.skips f) : (r.join q h).skips f := by
  simp_all [skips, join]

theorem skips_join_right {f} (hs : q.skips f) : (r.join q h).skips f := by
  simp_all [skips, join]

theorem Resolves.join_left (hd : r.Resolves f d) : (r.join q h).Resolves f d := by
  rcases hd with hd | hd | hd
  · exact .inl hd
  · exact .inr (.inl (mem_join.mpr (.inl hd)))
  · exact .inr (.inr (skips_join_left hd))

theorem Resolves.join_right (hd : q.Resolves f d) : (r.join q h).Resolves f d := by
  rcases hd with hd | hd | hd
  · exact .inl hd
  · exact .inr (.inl (mem_join.mpr (.inr hd)))
  · exact .inr (.inr (skips_join_right hd))

theorem readable_join (hr : r.Readable) (hq : q.Readable) : (r.join q h).Readable where
  keys k hk := by
    simp only [Document.mem_keys, op?_join] at hk
    obtain ⟨i, p, hp, hk⟩ := hk
    rcases hp with hp | hp
    · exact hr.keys k (Document.mem_keys.mpr ⟨i, p, hp, hk⟩)
    · exact hq.keys k (Document.mem_keys.mpr ⟨i, p, hp, hk⟩)
  fields f _ i v hv := by
    rcases visible_join.mp hv with ⟨hv, _⟩ | ⟨hv, _⟩
    · obtain ⟨d, hd, hs⟩ := hr.fields f (written_iff.mpr ⟨i, v, hv⟩) i v hv
      exact ⟨d, hd, hs.join_left⟩
    · obtain ⟨d, hd, hs⟩ := hq.fields f (written_iff.mpr ⟨i, v, hv⟩) i v hv
      exact ⟨d, hd, hs.join_right⟩

end Join

variable [Platform]

variable {r : SyncReplica}

theorem compatible_of_stores (hS : Collisionless S) (hr : r.Stores S) (hq : q.Stores S)
    (hr' : r.Digested) (hq' : q.Digested) : r.Compatible q := by
  intro id v w hv hw
  exact hS v (hr id v hv) w (hq id w hw) ((hr' id v hv).trans (hq' id w hw).symm)

theorem Valid.join (hr : r.Valid) (hq : q.Valid) (hc : r.Compatible q)
    (h : r.document.Agrees q.document) : (r.join q h).Valid where
  digests id v hv := by
    rcases (getElem?_join hc).mp hv with hv | hv
    · exact hr.digests id v hv
    · exact hq.digests id v hv
  readable := readable_join hr.readable hq.readable
  presences f hw hs := by
    have hs₁ : ¬r.skips (.presence f.resource) := fun hc => hs (skips_join_left hc)
    have hs₂ : ¬q.skips (.presence f.resource) := fun hc => hs (skips_join_right hc)
    constructor
    case written =>
      rw [written_join] at hw ⊢
      rcases hw with hw | hw
      · exact .inl (hr.presences f hw hs₁).written
      · exact .inr (hq.presences f hw hs₂).written
    case booleans =>
      intro d hd
      simp only [getElem?_join hc]
      rcases hd.of_join with hd | hd
      · have ⟨b, hb⟩ := (hr.presences _ hd.written hs₁).booleans d hd
        exact ⟨b, .inl hb⟩
      · have ⟨b, hb⟩ := (hq.presences _ hd.written hs₂).booleans d hd
        exact ⟨b, .inr hb⟩

-- What a merge does: it is refused without an effect, or it leaves the union behind.
theorem merge_cases (r : SyncReplica) (s : ReplicaSnapshot) :
    (∃ e, r.merge s = (.error e, r)) ∨ ∃ q h, load s .nil = .ok q ∧ r.Compatible q ∧
      r.merge s = ((r.join q h).validate, r.join q h) := by
  unfold merge
  cases hl : load s .nil
  case error e => exact .inl ⟨e, rfl⟩
  case ok q =>
    simp only
    split
    case isTrue => exact .inl ⟨_, rfl⟩
    case isFalse hv =>
      cases hd : r.document.merge q.document
      case none => exact .inl ⟨_, rfl⟩
      case some d =>
        have ⟨h, hd⟩ := Document.merge_eq_some.mp hd
        refine .inr ⟨q, h, rfl, ?_, by simp [join, hd]⟩
        intro id v w hr hq
        by_contra hne
        apply hv
        simp only [List.any_eq_true, Prod.exists, ExtTreeMap.mem_toList_iff_getElem?_eq_some]
        exact ⟨id, w, hq, by simp [hr, hne]⟩

theorem merge_of_load (hl : load s .nil = .ok q)
    (hc : r.Compatible q) (h : r.document.Agrees q.document) :
    r.merge s = ((r.join q h).validate, r.join q h) := by
  simp only [merge, hl, Document.merge_of_agrees h]
  split
  case isTrue hn =>
    simp only [List.any_eq_true, Prod.exists, ExtTreeMap.mem_toList_iff_getElem?_eq_some,
      Option.any_eq_true, decide_eq_true_eq] at hn
    obtain ⟨id, w, hw, v, hv, hne⟩ := hn
    exact absurd (hc id v w hv hw) hne
  case isFalse => rfl

theorem merge_eq_join (hr : r.Valid)
    (hl : load s .nil = .ok q) (hc : r.Compatible q) (h : r.document.Agrees q.document) :
    r.merge s = (.ok (), r.join q h) := by
  have hv := validate_eq_ok.mpr (hr.join (load_eq_ok.mp hl).2.2.2.2.2 hc h)
  rw [merge_of_load hl hc h, hv]

theorem merge_snapshot (hr : r.Valid) (hq : q.Valid) (hc : r.Compatible q)
    (h : r.document.Agrees q.document) : r.merge q.snapshot = (.ok (), r.join q h) :=
  merge_eq_join hr (load_snapshot hq .nil) hc h

theorem merge_eq_ok (hm : r.merge s = (.ok (), r')) :
    ∃ q h, load s .nil = .ok q ∧ r.Compatible q ∧ r' = r.join q h ∧ r'.Valid := by
  rcases merge_cases r s with ⟨e, he⟩ | ⟨q, h, hl, hc, he⟩
  · simp [he] at hm
  · rw [he, Prod.mk.injEq] at hm
    exact ⟨q, h, hl, hc, hm.2.symm, hm.2 ▸ validate_eq_ok.mp hm.1⟩

-- A failed merge into a valid replica changes nothing, and the validation of the union of two valid
-- replicas never fails.
theorem merge_atomic (r : SyncReplica) (h : r.validate = .ok ()) :
    (∀ s e r', r.merge s = (.error e, r') → r' = r) ∧
    ∀ q, q.validate = .ok () → r.Compatible q → ∀ ha : r.document.Agrees q.document,
      (r.join q ha).validate = .ok () ∧ r.merge q.snapshot = (.ok (), r.join q ha) := by
  rw [validate_eq_ok] at h
  constructor
  case left =>
    intro s e r' hm
    rcases merge_cases r s with ⟨e', he⟩ | ⟨q, ha, hl, hc, he⟩
    · rw [he] at hm
      exact (Prod.mk.inj hm).2.symm
    · rw [merge_eq_join h hl hc ha] at hm
      simp at hm
  case right =>
    intro q hq hc ha
    rw [validate_eq_ok] at hq ⊢
    exact ⟨h.join hq hc ha, merge_snapshot h hq hc ha⟩

omit [Platform] in
-- An empty replica is valid and refuses a snapshot of an unknown schema without changing.
theorem merge_atomic_new : ∃ (_ : Platform) (s : ReplicaSnapshot),
    (new 1).validate = .ok () ∧ ((new 1).merge s).1 = .error .invalidReplica ∧
      ((new 1).merge s).2 = new 1 := by
  let _ : Platform := .sample
  have hv : (new 1).validate = .ok () := validate_eq_ok.mpr (valid_new 1)
  have hm : (new 1).merge ⟨3, some ∅, ∅⟩ = (.error .invalidReplica, new 1) := by
    simp [merge, load]
  exact ⟨.sample, ⟨3, some ∅, ∅⟩, hv, by rw [hm], (merge_atomic (new 1) hv).1 _ _ _ hm⟩

theorem load_published_empty : load ⟨5, Platform.save ∅, ∅⟩ .nil =
    .ok { (new .nil) with fixed := true } := by
  have hv := valid_new .nil
  rw [load_eq_ok]
  refine ⟨.inr rfl, Platform.loadDocument_save _, rfl, rfl, rfl, hv.digests, ?_, ?_⟩
  · exact ⟨hv.readable.keys, by simp [Written, new, Document.mem_keys]⟩
  · simp [Written, new, Document.mem_keys]

-- A field that is written without the presence of its resource leaves a replica that is not valid.
-- It takes over the flag of a published snapshot even though the merge fails.
theorem merge_orphan (hf : fixedCloudSyncField f) (hw : r.Written f)
    (hn : ¬r.Written (.presence f.resource)) :
    ∃ e r', r.merge ⟨5, Platform.save ∅, ∅⟩ = (.error e, r') ∧ r'.fixed = true := by
  have h : r.document.Agrees ∅ := .empty _
  have hc : r.Compatible { (new .nil) with fixed := true } := by
    intro id v w _ hw
    simp [new] at hw
  have hm := merge_of_load load_published_empty hc h
  cases hv : (r.join { (new .nil) with fixed := true } h).validate
  case error e => exact ⟨e, _, hv ▸ hm, by simp [join]⟩
  have hp := (validate_eq_ok.mp hv).presences f (written_join.mpr (.inl hw))
    (by simp [skips, fixedCloudSyncField_presence hf])
  rcases written_join.mp hp.written with hp | hp
  · exact absurd hp hn
  · simp [Written, new, Document.mem_keys] at hp

-- A projection may hold a field without its presence, and `preserve` writes it as it stands.
theorem preserve_orphan {f : SyncFieldId} {v : SyncValue} {projection : SyncProjection}
    (hv : f.Valid) (hn : f ≠ .presence f.resource) (a : Uuid) (identities)
    (hp : ∀ k w, projection.values[k]? = some w ↔ k = f.key ∧ w = v) :
    let r := ((new a).preserve projection identities).2
    r.Written f ∧ ¬r.Written (.presence f.resource) ∧ r.fixed = false := by
  intro r
  have hk (k : String) (h : k ∈ projection.values) : k = f.key := by
    obtain ⟨w, hw⟩ := mem_iff_getElem?_eq_some.mp h
    exact ((hp k w).mp hw).1
  obtain ⟨ws, he, hm⟩ := preserve_writes (new a) identities
    fun k h => ⟨f, SyncFieldId.fromKey_eq_some.mpr ⟨hv, (hk k h).symm⟩⟩
  have hr : r = (new a).performAll identities ws := he
  rw [hr]
  refine ⟨?_, fun hw => ?_, by simp [new]⟩
  · have hw : ⟨f, some v⟩ ∈ ws := (hm _).mpr ⟨hv, v, (hp ..).mpr ⟨rfl, rfl⟩, rfl⟩
    exact written_performAll_of_mem (w := ⟨f, some v⟩) hw
  · obtain ⟨i, p, hi, hpk⟩ := Document.mem_keys.mp hw
    rcases op?_performAll hi with hi | ⟨_, w, hw, hwk, _⟩
    · simp [new] at hi
    · obtain ⟨_, v', hv', _⟩ := (hm w).mp hw
      have hfw := ((hp ..).mp hv').1
      exact hn (SyncFieldId.key_injective (hfw.symm.trans (hwk.symm.trans hpk)))

omit [Platform] in
theorem merge_error_changes : ∃ (_ : Platform) (projection : SyncProjection)
    (identities : Nat → Uuid) (s : ReplicaSnapshot) (e : SyncError) (r' : SyncReplica),
    let r := ((new 1).preserve projection identities).2
    (∃ q, load s .nil = .ok q) ∧ r.merge s = (.error e, r') ∧ r.fixed = false ∧
      r'.fixed = true := by
  generalize hp : Platform.sample = platform
  let f : SyncFieldId := ⟨⟨"connection", "c1"⟩, "name"⟩
  let projection : SyncProjection := { values := (∅ : SyncValues).insert f.key (.bool true) }
  have hp (k w) : projection.values[k]? = some w ↔ k = f.key ∧ w = .bool true := by
    simp only [projection, ExtTreeMap.getElem?_insert, Std.compare_eq_iff_eq]
    grind
  have ⟨hw, hn, hf⟩ := preserve_orphan (f := f) (by constructor <;> simp [f]) (by decide) 1
    (fun _ => 0) hp
  obtain ⟨e, r', hm, hf'⟩ := merge_orphan (by decide) hw hn
  exact ⟨platform, _, _, _, e, r', ⟨_, load_published_empty⟩, hm, hf, hf'⟩

end NyaTerm.SyncReplica

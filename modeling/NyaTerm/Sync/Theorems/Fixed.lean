import NyaTerm.Sync.Theorems.Materialize

open Std Causal

namespace NyaTerm.SyncReplica

open Fallible

-- Two replicas show the same entries and values in the registers of the core.
structure SameCore (r q : SyncReplica) : Prop where
  entries : ∀ f, fixedCloudSyncField f → r.document.getAll f.key = q.document.getAll f.key
  values : ∀ f d, fixedCloudSyncField f → r.Holds f d → d ≠ deleted → r.values[d]? = q.values[d]?

namespace SameCore

variable {r : SyncReplica} (h : r.SameCore q) (hf : fixedCloudSyncField f)

include h hf in
theorem holds {d} : r.Holds f d ↔ q.Holds f d :=
  holds_congr (h.entries f hf)

include h in
theorem symm : q.SameCore r where
  entries f hf := (h.entries f hf).symm
  values f d hf hd hn := (h.values f d hf ((h.holds hf).mpr hd) hn).symm

include h hf

theorem disputed : r.Disputed f ↔ q.Disputed f := by
  simp only [Disputed, h.holds hf]

theorem only {d} : r.Only f d ↔ q.Only f d := by
  constructor
  case mp => exact fun ho => ⟨(h.holds hf).mp ho.holds, fun e he => ho.unique e ((h.holds hf).mpr he)⟩
  case mpr => exact fun ho => ⟨(h.holds hf).mpr ho.holds, fun e he => ho.unique e ((h.holds hf).mp he)⟩

theorem reads {d v} (hd : r.Holds f d) (hr : r.Reads d v) : q.Reads d v := by
  cases hr
  case tombstone => exact .tombstone
  case value hn hv => exact .value hn (h.values f d hf hd hn ▸ hv)

theorem resolves {d} (hd : r.Holds f d) : r.Resolves f d ↔ q.Resolves f d := by
  have hs (r : SyncReplica) : ¬r.skips f := by simp [skips, hf]
  by_cases hn : d = deleted
  case pos => exact ⟨fun _ => .inl hn, fun _ => .inl hn⟩
  case neg => simp [Resolves, hs, mem_iff_getElem?_eq_some, h.values f d hf hd hn]

theorem candidates : r.candidates f = q.candidates f :=
  candidates_congr (h.entries f hf) fun _ hd => h.resolves hf hd

theorem settled {v} : r.Settled f v ↔ q.Settled f v := by
  constructor
  case mp =>
    intro hs
    have ⟨d, ho, hr⟩ := hs.value
    exact ⟨hs.supported, d, (h.only hf).mp ho, h.reads hf ho.holds hr⟩
  case mpr =>
    intro hs
    have ⟨d, ho, hr⟩ := hs.value
    exact ⟨hs.supported, d, (h.only hf).mpr ho, h.symm.reads hf ho.holds hr⟩

end SameCore

-- The core of a replica that can be published: the presence of a resource is not a tombstone.
structure SameView (r q : SyncReplica) : Prop extends SameCore r q where
  presences : ∀ ρ, fixedCloudSyncField (.presence ρ) → ¬r.Holds (.presence ρ) deleted

variable {r : SyncReplica}

theorem not_skips_of_core (hf : fixedCloudSyncField f) : ¬r.skips f := by
  simp [skips, hf]

namespace SameView

variable (h : r.SameView q)
include h

theorem symm : q.SameView r where
  toSameCore := h.toSameCore.symm
  presences ρ hf hd := h.presences ρ hf ((h.holds hf).mpr hd)

theorem gone {ρ} (hf : fixedCloudSyncField (.presence ρ)) (hg : r.Gone ρ) : q.Gone ρ := by
  have ⟨d, v, ho, hv, hb⟩ := hg
  have hn : d ≠ deleted := by
    rintro rfl
    exact h.presences ρ hf ho.holds
  exact ⟨d, v, (h.only hf).mp ho, h.values _ d hf ho.holds hn ▸ hv, hb⟩

theorem reported {c} (hf : fixedCloudSyncField c.field) (hc : r.Reported c) : q.Reported c where
  candidates := (h.candidates hf).symm.trans hc.candidates
  disputed := (h.disputed hf).mp hc.disputed
  seen := not_skips_of_core hf
  shown := by
    have hp := fixedCloudSyncField_presence hf
    refine hc.shown.imp_right (mt ?_)
    exact Or.imp (h.disputed hp).mpr (h.symm.gone hp)

theorem blocked {ρ} (hf : fixedCloudSyncField (.presence ρ)) (hb : r.Blocked ρ) : q.Blocked ρ := by
  obtain ⟨c, hc, hs, rfl⟩ := hb
  exact ⟨c, h.reported (fixedCloudSyncField_of_presence hf hs) hc, hs, rfl⟩

theorem removed {scope ρ} (hf : fixedCloudSyncField (.presence ρ)) (hr : r.Removed scope ρ) :
    q.Removed scope ρ :=
  ⟨⟨hr.inScope.included, not_skips_of_core hf⟩, h.gone hf hr.gone⟩

theorem live {l scope ρ} (hf : fixedCloudSyncField (.presence ρ)) (hl : r.Live l scope ρ) :
    q.Live l scope ρ where
  inScope := ⟨hl.inScope.included, not_skips_of_core hf⟩
  undisputed := (h.disputed hf).not.mp hl.undisputed
  present := mt (h.symm.gone hf) hl.present
  admitted := hl.admitted.imp_right (mt (h.symm.blocked hf))

theorem conflicts {cs ds} (hr : r.conflicts = .ok cs) (hq : q.conflicts = .ok ds) :
    ds.filter (fixedCloudSyncField ·.field) = cs.filter (fixedCloudSyncField ·.field) := by
  refine eq_of_sorted ((conflicts_sorted hq).filter _) ((conflicts_sorted hr).filter _) fun c => ?_
  simp only [List.mem_filter, mem_conflicts hr, mem_conflicts hq]
  exact and_congr_left fun hf => ⟨h.symm.reported hf, h.reported hf⟩

theorem materialized {l scope m m'} (hm : r.Materialized l scope m)
    (hm' : q.Materialized l scope m') (hf : fixedCloudSyncField f) : m[f.key]? = m'[f.key]? := by
  have hp := fixedCloudSyncField_presence hf
  by_cases hv : f.Valid
  case neg =>
    have hk := SyncFieldId.fromKey_key_eq_none hv
    rw [hm.foreign _ hk, hm'.foreign _ hk]
  case pos =>
    by_cases hr : r.Removed scope f.resource
    case pos => rw [hm.removed f hv hr, hm'.removed f hv (h.removed hp hr)]
    case neg =>
      by_cases hs : r.Live l scope f.resource ∧ ∃ v, r.Settled f v
      case pos =>
        have ⟨hl, v, hs⟩ := hs
        rw [hm.settled f v hl hs, hm'.settled f v (h.live hp hl) ((h.settled hf).mp hs)]
      case neg =>
        rw [hm.kept f hr hs, hm'.kept f (mt (h.symm.removed hp) hr) fun hs' => hs ?_]
        have ⟨hl, v, hs'⟩ := hs'
        exact ⟨h.symm.live hp hl, v, (h.settled hf).mpr hs'⟩

end SameView

-- A value that some current candidate of a core field refers to, and that is valid for the field.
def Publishes (r : SyncReplica) (d : String) (v : SyncValue) : Prop :=
  ∃ f, fixedCloudSyncField f ∧ r.Holds f d ∧ r.Reads d (some v) ∧
    validFixedCloudSyncValue f v.decode

theorem Publishes.unique {d v w} : r.Publishes d v → r.Publishes d w → v = w
  | ⟨_, _, _, hv, _⟩, ⟨_, _, _, hw, _⟩ => Option.some.inj (hv.unique hw)

-- The values of all current candidates of core fields are valid.
def Publishable (r : SyncReplica) : Prop :=
  ∀ f d v, fixedCloudSyncField f → r.Holds f d → r.Reads d (some v) →
    validFixedCloudSyncValue f v.decode

theorem published_eq_ok {f c o} : r.published f c = .ok o ↔
    ∃ v, r.Reads c.value v ∧ (∀ w, v = some w → validFixedCloudSyncValue f w.decode) ∧
      o = v.map (c.value, ·) := by
  unfold published
  split
  case isTrue hd =>
    rw [hd]
    constructor
    case mp =>
      rintro ⟨⟩
      exact ⟨none, .tombstone, by simp, rfl⟩
    case mpr =>
      rintro ⟨v, hv, _, rfl⟩
      cases hv.unique .tombstone
      rfl
  case isFalse hd =>
    simp only [bind_eq_ok, candidateValue_eq_ok, reads_of_ne hd]
    constructor
    case mp =>
      rintro ⟨w, hw, h⟩
      split at h
      case isFalse => contradiction
      case isTrue hx =>
        cases h
        exact ⟨some w, ⟨w, hw, rfl⟩, by simpa using hx, rfl⟩
    case mpr =>
      rintro ⟨_, ⟨w, hw, rfl⟩, hx, rfl⟩
      exact ⟨w, hw, if_pos (hx w rfl)⟩

theorem publishedField_core {f} (hf : fixedCloudSyncField f) {os} :
    r.publishedField f = .ok os ↔
      ∃ cs, r.candidates f = .ok cs ∧ cs.mapM (r.published f) = .ok os := by
  simp [publishedField, hf, bind_eq_ok]

theorem mem_publishedField {f os} (h : r.publishedField f = .ok os) {d v} :
    some (d, v) ∈ os ↔ fixedCloudSyncField f ∧ r.Holds f d ∧ r.Reads d (some v) ∧
      validFixedCloudSyncValue f v.decode := by
  by_cases hf : fixedCloudSyncField f
  case neg =>
    simp only [publishedField, hf] at h
    cases h
    simp [hf]
  case pos =>
    have ⟨cs, hc, h⟩ := (publishedField_core hf).mp h
    simp only [mem_of_mapM h, published_eq_ok, hf, true_and, holds_iff hc]
    constructor
    case mp =>
      rintro ⟨c, hm, w, hr, hx, he⟩
      cases w
      case none => simp at he
      case some w =>
        cases he
        exact ⟨⟨c, hm, rfl⟩, hr, hx v rfl⟩
    case mpr =>
      rintro ⟨⟨c, hm, rfl⟩, hr, hx⟩
      exact ⟨c, hm, some v, hr, fun w hw => Option.some.inj hw ▸ hx, rfl⟩

theorem exists_publishedField {f} : (∃ os, r.publishedField f = .ok os) ↔
    (fixedCloudSyncField f → r.ReadableAt f ∧
      ∀ d v, r.Holds f d → r.Reads d (some v) → validFixedCloudSyncValue f v.decode) := by
  by_cases hf : fixedCloudSyncField f
  case neg => simp [publishedField, hf]
  simp only [publishedField_core hf, hf, forall_const]
  constructor
  case mp =>
    rintro ⟨os, cs, hc, hm⟩
    refine ⟨exists_candidates.mp ⟨cs, hc⟩, fun d v hd hv => ?_⟩
    obtain ⟨c, hx, rfl⟩ := (holds_iff hc).mp hd
    have ⟨_, hp⟩ := exists_mapM_eq_ok.mp ⟨os, hm⟩ c hx
    have ⟨w, hw, hw', _⟩ := published_eq_ok.mp hp
    exact hw' v (hw.unique hv)
  case mpr =>
    rintro ⟨hr, h⟩
    have ⟨cs, hc⟩ := exists_candidates.mpr hr
    have ⟨os, ho⟩ : ∃ os, cs.mapM (r.published f) = .ok os := by
      rw [exists_mapM_eq_ok]
      intro c hm
      have ⟨v, hv⟩ := exists_reads (candidates_resolve hc hm) (not_skips_of_core hf)
      refine ⟨_, published_eq_ok.mpr ⟨v, hv, fun w hw => ?_, rfl⟩⟩
      exact h c.value w ((holds_iff hc).mpr ⟨c, hm, rfl⟩) (hw ▸ hv)
    exact ⟨os, cs, hc, ho⟩

theorem mem_fields_of_written {fs} (hf : r.fields = .ok fs) {f}
    (hw : r.Written f) : f ∈ fs := by
  have ⟨g, hg, hk⟩ := exists_fields.mp ⟨fs, hf⟩ _ hw
  cases SyncFieldId.key_injective hk
  exact (mem_fields hf).mpr ⟨hg, hw⟩

theorem mem_publishedValues {fs vs} (hf : r.fields = .ok fs)
    (hv : fs.mapM r.publishedField = .ok vs) {d v} :
    (d, v) ∈ vs.flatten.filterMap id ↔ r.Publishes d v := by
  simp only [List.mem_filterMap, id_eq, exists_eq_right, List.mem_flatten, mem_of_mapM hv]
  constructor
  case mp =>
    rintro ⟨os, ⟨f, _, ho⟩, hm⟩
    exact ⟨f, (mem_publishedField ho).mp hm⟩
  case mpr =>
    rintro ⟨f, h⟩
    have hm := mem_fields_of_written hf h.2.1.written
    obtain ⟨os, ho⟩ := exists_mapM_eq_ok.mp ⟨vs, hv⟩ f hm
    exact ⟨os, ⟨f, hm, ho⟩, (mem_publishedField ho).mpr h⟩

variable [Platform]

-- The replica that a publication stands for.
def publication (r : SyncReplica) (a : Uuid) (values : BTreeMap String SyncValue) : SyncReplica where
  document := r.document
  actor := a
  values := values
  fixed := true

-- What `fixedSnapshot` publishes when it succeeds.
structure Published (r : SyncReplica) (s : ReplicaSnapshot) : Prop where
  schema : s.schema = 5
  document : s.document = Platform.save r.document
  values : ∀ d v, s.values[d]? = some v ↔ r.Publishes d v
  publishable : r.Publishable
  valid : (r.publication .nil s.values).Valid

theorem load_published (hs : s.schema = 5)
    (hd : s.document = Platform.save r.document) {a q} :
    load s a = .ok q ↔ q = r.publication a s.values ∧ q.Valid := by
  rw [load_eq_ok, hs, hd, Platform.loadDocument_save]
  constructor
  case mp =>
    rintro ⟨_, hd, ha, hv, hf, h⟩
    refine ⟨?_, h⟩
    ext1 <;> simp_all [publication]
  case mpr =>
    rintro ⟨rfl, h⟩
    exact ⟨.inr rfl, rfl, rfl, rfl, rfl, h⟩

theorem fixedSnapshot_eq_ok :
    r.fixedSnapshot = .ok s ↔ ∃ fs vs, r.fields = .ok fs ∧ fs.mapM r.publishedField = .ok vs ∧
      s = ⟨5, Platform.save r.document, ExtTreeMap.ofList (vs.flatten.filterMap id)⟩ ∧
      (r.publication .nil s.values).Valid := by
  simp only [fixedSnapshot, bind_eq_ok, pure_eq_ok]
  constructor
  case mp =>
    rintro ⟨fs, hf, vs, hv, q, hl, rfl⟩
    have ⟨rfl, hq⟩ := (load_published (r := r) rfl rfl).mp hl
    exact ⟨fs, vs, hf, hv, rfl, hq⟩
  case mpr =>
    rintro ⟨fs, vs, hf, hv, rfl, hq⟩
    exact ⟨fs, hf, vs, hv, _, (load_published rfl rfl).mpr ⟨rfl, hq⟩, rfl⟩

omit [Platform] in
theorem getElem?_publishedValues {fs vs} (hf : r.fields = .ok fs)
    (hv : fs.mapM r.publishedField = .ok vs) {d v} :
    (ExtTreeMap.ofList (vs.flatten.filterMap id) : BTreeMap String SyncValue)[d]? = some v ↔
      r.Publishes d v := by
  rw [getElem?_ofList_eq_some, mem_publishedValues hf hv]
  simp only [mem_publishedValues hf hv]
  exact fun v w => Publishes.unique

theorem fixedSnapshot_published
    (h : r.fixedSnapshot = .ok s) : r.Published s := by
  obtain ⟨fs, vs, hf, hv, rfl, hq⟩ := fixedSnapshot_eq_ok.mp h
  refine ⟨rfl, rfl, fun d v => getElem?_publishedValues hf hv, fun f d v hc hd hr => ?_, hq⟩
  have ho := exists_mapM_eq_ok.mp ⟨vs, hv⟩ f (mem_fields_of_written hf hd.written)
  exact (exists_publishedField.mp ho hc).2 d v hd hr

theorem Valid.publication (hr : r.Valid) (hp : r.Publishable) (a : Uuid)
    {values : BTreeMap String SyncValue} (hv : ∀ d v, values[d]? = some v ↔ r.Publishes d v) :
    (r.publication a values).Valid where
  digests d v h := by
    obtain ⟨_, _, _, h, _⟩ := (hv d v).mp h
    exact hr.digests d v h.held
  readable := by
    refine ⟨hr.readable.keys, fun f hw i v hx => ?_⟩
    obtain ⟨d, hd, hs⟩ := hr.readable.fields f hw i v hx
    refine ⟨d, hd, ?_⟩
    by_cases hf : fixedCloudSyncField f
    case neg => exact .inr (.inr (by simp [skips, SyncReplica.publication, hf]))
    obtain ⟨w, hw⟩ := exists_reads hs (not_skips_of_core hf)
    cases w
    case none => exact .inl hw.eq_deleted
    case some w =>
      have hh : r.Holds f d := ⟨i, v, hx, hd⟩
      exact .inr (.inl (mem_iff_getElem?_eq_some.mpr
        ⟨w, (hv d w).mpr ⟨f, hf, hh, hw, hp f d w hf hh hw⟩⟩))
  presences f hw hs := by
    have hf : fixedCloudSyncField (.presence f.resource) := by
      simpa [skips, SyncReplica.publication] using hs
    have hpv := hr.presences f hw (not_skips_of_core hf)
    refine ⟨hpv.written, fun d hd => ?_⟩
    obtain ⟨b, hb⟩ := hpv.booleans d hd
    have hb := hr.digests.reads hb
    exact ⟨b, (hv d _).mpr ⟨_, hf, hd, hb, hp _ d _ hf hd hb⟩⟩

theorem exists_fixedSnapshot (hr : r.Valid) :
    (∃ s, r.fixedSnapshot = .ok s) ↔ r.Publishable := by
  constructor
  case mp =>
    rintro ⟨s, hs⟩
    exact (fixedSnapshot_published hs).publishable
  case mpr =>
    intro hp
    have ⟨fs, hf⟩ := exists_fields.mpr hr.readable.keys
    have ⟨vs, hv⟩ : ∃ vs, fs.mapM r.publishedField = .ok vs := by
      rw [exists_mapM_eq_ok]
      intro f hm
      refine exists_publishedField.mpr fun hc => ⟨?_, fun d v => hp f d v hc⟩
      exact hr.readable.fields f ((mem_fields hf).mp hm).2
    have hq := hr.publication hp .nil fun d v => getElem?_publishedValues hf hv
    exact ⟨_, fixedSnapshot_eq_ok.mpr ⟨fs, vs, hf, hv, rfl, hq⟩⟩

theorem Published.sameView (h : r.Published s) {a q}
    (hq : load s a = .ok q) : r.SameView q := by
  obtain ⟨rfl, hv⟩ := (load_published h.schema h.document).mp hq
  refine ⟨⟨fun f _ => rfl, fun f d hf hd hn => Option.ext fun v => ?_⟩, fun ρ hf hd => ?_⟩
  · constructor
    case mp =>
      intro hv
      have hr : r.Reads d (some v) := .value hn hv
      exact (h.values d v).mpr ⟨f, hf, hd, hr, h.publishable f d v hf hd hr⟩
    case mpr =>
      intro hv
      have ⟨_, _, _, hr, _⟩ := (h.values d v).mp hv
      exact hr.held
  · have hs : ¬(r.publication a s.values).skips (.presence ρ) := not_skips_of_core hf
    have ⟨b, hb⟩ := (hv.presences (.presence ρ) hd.written hs).booleans deleted hd
    exact digest_ne_deleted _ (hv.digests _ _ hb)

omit [Platform] in
theorem SameCore.publishes (h : r.SameCore q) {d v} (hp : r.Publishes d v) : q.Publishes d v := by
  have ⟨f, hf, hd, hr, hx⟩ := hp
  exact ⟨f, hf, (h.holds hf).mp hd, h.reads hf hd hr, hx⟩

omit [Platform] in
theorem SameCore.publishable (h : r.SameCore q) (hp : r.Publishable) : q.Publishable := by
  intro f d v hf hd hr
  exact hp f d v hf ((h.holds hf).mpr hd) (h.symm.reads hf hd hr)

-- Publishing leaks nothing outside of the core, and loses nothing of it. It fails for the values
-- that are not valid, and only for them.
theorem fixedSnapshot_exact (r : SyncReplica) :
    (r.validate = .ok () → ((∃ s, r.fixedSnapshot = .ok s) ↔ r.Publishable)) ∧
    (∀ s, r.fixedSnapshot = .ok s →
      (∀ d v, s.values[d]? = some v ↔ r.Publishes d v) ∧
      ∀ a, ∃ q, load s a = .ok q ∧
        (∀ f, fixedCloudSyncField f → q.candidates f = r.candidates f) ∧
        (∀ cs, r.conflicts = .ok cs →
          q.conflicts = .ok (cs.filter (fixedCloudSyncField ·.field))) ∧
        ∀ l scope, ∃ m, q.materialize l scope = .ok m ∧ ∀ m', r.materialize l scope = .ok m' →
          ∀ f : SyncFieldId, fixedCloudSyncField f → m[f.key]? = m'[f.key]?) ∧
    ∀ r', r.SameCore r' →
      (∀ s s', r.fixedSnapshot = .ok s → r'.fixedSnapshot = .ok s' → s.values = s'.values) ∧
      (r.validate = .ok () → r'.validate = .ok () →
        ((∃ s, r.fixedSnapshot = .ok s) ↔ ∃ s', r'.fixedSnapshot = .ok s')) := by
  refine ⟨fun hr => exists_fixedSnapshot (validate_eq_ok.mp hr), ?left, ?right⟩
  case left =>
    intro s hs
    have hp := fixedSnapshot_published hs
    refine ⟨hp.values, fun a => ?_⟩
    have hq : (r.publication a s.values).Valid := hp.valid.withActor a
    have hl := (load_published hp.schema hp.document).mpr ⟨rfl, hq⟩
    have h := hp.sameView hl
    refine ⟨_, hl, fun f hf => (h.candidates hf).symm, fun cs hc => ?_, fun l scope => ?_⟩
    · obtain ⟨ds, hd⟩ := exists_conflicts.mpr hq.consistent
      -- A fixed replica reports no conflict outside of the core.
      have hf : ds.filter (fixedCloudSyncField ·.field) = ds := by
        rw [List.filter_eq_self]
        intro c hm
        simpa [skips, publication] using ((mem_conflicts hd).mp hm).seen
      rw [hd, ← h.conflicts hc hd, hf]
    · obtain ⟨m, hm⟩ := exists_materialize hq.consistent l scope
      refine ⟨m, hm, fun m' hm' f hf => ?_⟩
      exact (h.materialized (materialize_eq_ok.mp hm').2 (materialize_eq_ok.mp hm).2 hf).symm
  case right =>
    intro r' h
    refine ⟨fun s s' hs hs' => ExtTreeMap.ext_getElem? fun d => Option.ext fun v => ?_,
      fun hr hr' => ?_⟩
    · rw [(fixedSnapshot_published hs).values, (fixedSnapshot_published hs').values]
      exact ⟨h.publishes, h.symm.publishes⟩
    · rw [exists_fixedSnapshot (validate_eq_ok.mp hr), exists_fixedSnapshot (validate_eq_ok.mp hr')]
      exact ⟨h.publishable, h.symm.publishable⟩

omit [Platform] in
-- A connection of a new device, which is published.
theorem fixedSnapshot_exact_connection : ∃ (_ : Platform) (r : SyncReplica) (s : ReplicaSnapshot)
    (d : String) (q : SyncReplica), r.validate = .ok () ∧ r.fixedSnapshot = .ok s ∧
      s.values[d]? = some (.bool true) ∧ load s 2 = .ok q := by
  let ρ : SyncResourceId := ⟨"connection", "c1"⟩
  let current : SyncProjection :=
    { values := (∅ : SyncValues).insert (SyncFieldId.presence ρ).key (.bool true) }
  have hc (k : String) (v) :
      current.values[k]? = some v ↔ k = (SyncFieldId.presence ρ).key ∧ v = .bool true := by
    simp only [current, ExtTreeMap.getElem?_insert, Std.compare_eq_iff_eq]
    grind
  have hf : fixedCloudSyncField (.presence ρ) := by decide
  generalize Platform.sample = platform
  have ⟨hr, hs, ho⟩ := capture_new_present (ρ := ρ) 1 {} (fun _ => 0)
    (by constructor <;> simp [SyncFieldId.presence, ρ, SyncFieldId.present]) (by decide) hc
  have he {g} (h : (new 1).Edits ∅ current {} g) : g = .presence ρ := by
    have hk := h.read.resolve_left (by simp [current])
    obtain ⟨v, hv⟩ := mem_iff_getElem?_eq_some.mp hk
    exact SyncFieldId.key_injective ((hc ..).mp hv).1
  have hp : (((new 1).capture ∅ current {} fun _ => 0).2).Publishable := by
    intro f d v _ hd hv
    obtain ⟨i, p, hi, hk⟩ := Document.mem_keys.mp hd.written
    have hg : f = .presence ρ := by
      rcases capture_adds ⟨i, p, hi, by simp [new], hk⟩ with ⟨_, h⟩ | ⟨h, _⟩ | h
      · exact absurd h.known (by simp)
      · exact he h
      · obtain ⟨g, hg, hedit⟩ := h.edit
        rw [SyncFieldId.eq_presence h.presence, ← hg, he hedit]
        rfl
    obtain ⟨b, rfl⟩ := hs _ _ hv.held
    rw [hg]
    cases b <;> decide
  have h := fixedSnapshot_exact ((new 1).capture ∅ current {} fun _ => 0).2
  obtain ⟨s, hpub⟩ := (h.1 (validate_eq_ok.mpr hr)).mpr hp
  obtain ⟨q, hq, -⟩ := (h.2.1 s hpub).2 2
  obtain ⟨b, hb⟩ := (hr.presences _ ho.holds.written (not_skips_of_core hf)).booleans _ ho.holds
  have hd := digest_bool (hr.digests _ _ hb)
  rw [hd] at hb
  have hv : s.values[digest (SyncValue.bool true).bytes]? = some (.bool true) :=
    ((h.2.1 s hpub).1 _ _).mpr ⟨_, hf, ho.holds, hr.digests.reads hb, by decide⟩
  exact ⟨platform, _, s, _, q, validate_eq_ok.mpr hr, hpub, hv, hq⟩

end NyaTerm.SyncReplica

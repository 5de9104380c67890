import NyaTerm.Sync.Theorems.Convergence

open Std Causal

namespace NyaTerm

open SyncReplica

variable {f : SyncFieldId} {p : SyncProjection} {k : String}

theorem SyncReplica.succeed_eq_ok {r} : succeed call = .ok r ↔ ∃ a, call = (.ok a, r) := by
  have ⟨res, q⟩ := call
  cases res <;> simp [succeed, Except.map]

variable [Platform]

section MergeAll

variable {r : SyncReplica}

-- A replica that holds no more than another one.
structure SyncReplica.Below (r q : SyncReplica) : Prop where
  document : r.document ≤ q.document
  values : ∀ (id : String) v, r.values[id]? = some v → q.values[id]? = some v
  fixed : r.fixed → q.fixed

omit [Platform] in
theorem SyncReplica.Below.compatible (h : r.Below x) (h' : q.Below x) : r.Compatible q :=
  fun id v w hv hw => Option.some.inj ((h.values id v hv).symm.trans (h'.values id w hw))

omit [Platform] in
theorem SyncReplica.Below.join {x : SyncReplica} (h : r.Below x) (h' : q.Below x)
    (ha : r.document.Agrees q.document) : (r.join q ha).Below x where
  document := Document.join_le (h := ha) h.document h'.document
  values id v hv := by
    rcases (getElem?_join (h.compatible h')).mp hv with hv | hv
    · exact h.values id v hv
    · exact h'.values id v hv
  fixed hf := by
    rcases Bool.or_eq_true_iff.mp hf with hf | hf
    · exact h.fixed hf
    · exact h'.fixed hf

theorem SyncReplica.Union.below (h : r.Union ss q) : r.Below q :=
  ⟨fun i p hp => (h.ops i p).mpr (.inl hp), fun id v hv => (h.values id v).mpr (.inl hv),
    fun hf => h.fixed.mpr (.inl hf)⟩

theorem SyncReplica.Union.member_below (h : r.Union ss q) {s x} (hs : s ∈ ss)
    (hx : load s .nil = .ok x) : x.Below q :=
  ⟨fun i p hp => (h.ops i p).mpr (.inr ⟨s, hs, x, hx, hp⟩),
    fun id v hv => (h.values id v).mpr (.inr ⟨s, hs, x, hx, hv⟩),
    fun hf => h.fixed.mpr (.inr ⟨s, hs, x, hx, hf⟩)⟩

theorem SyncReplica.mergeAll_cons : r.mergeAll (s :: ss) = .ok q ↔
    ∃ r', r.merge s = (.ok (), r') ∧ r'.mergeAll ss = .ok q := by
  simp only [mergeAll, List.foldlM_cons, Fallible.bind_eq_ok, succeed_eq_ok]
  refine exists_congr fun r' => and_congr_left fun _ => ⟨?_, fun h => ⟨(), h⟩⟩
  rintro ⟨_, h⟩
  exact h

theorem SyncReplica.mergeAll_union (h : r.mergeAll ss = .ok q) :
    r.Union ss q ∧ ∀ s ∈ ss, ∃ x, load s .nil = .ok x := by
  induction ss generalizing r
  case nil =>
    cases h
    exact ⟨.nil, by simp⟩
  case cons s ss hi =>
    have ⟨r', hm, hq⟩ := mergeAll_cons.mp h
    obtain ⟨x, ha, hx, hc, rfl, _⟩ := merge_eq_ok hm
    have ⟨hu, hl⟩ := hi hq
    refine ⟨((Union.single hx).join hc ha).trans hu, ?_⟩
    simp only [List.forall_mem_cons]
    exact ⟨⟨x, hx⟩, hl⟩

theorem SyncReplica.mergeAll_of_below (hr : r.Valid) (hb : r.Below top)
    (hs : ∀ s ∈ ss, ∃ x, load s .nil = .ok x ∧ x.Below top) :
    ∃ q, r.mergeAll ss = .ok q ∧ q.Valid ∧ q.Below top := by
  induction ss generalizing r
  case nil => exact ⟨r, rfl, hr, hb⟩
  case cons s ss hi =>
    simp only [List.forall_mem_cons] at hs
    obtain ⟨⟨x, hx, hxb⟩, hs⟩ := hs
    have hc := hb.compatible hxb
    have ha : r.document.Agrees x.document := .of_le hb.document hxb.document
    have hm := merge_eq_join hr hx hc ha
    have hv := hr.join (load_eq_ok.mp hx).2.2.2.2.2 hc ha
    obtain ⟨q, hq, hqv, hqb⟩ := hi hv (hb.join hxb ha) hs
    exact ⟨q, mergeAll_cons.mpr ⟨_, hm, hq⟩, hqv, hqb⟩

theorem SyncReplica.mergeAll_congr (hr : r.Valid) (h : r.mergeAll ss = .ok q)
    (he : ∀ s, s ∈ ss ↔ s ∈ ts) : r.mergeAll ts = .ok q := by
  have ⟨hu, hl⟩ := mergeAll_union h
  obtain ⟨q', hq, _, _⟩ := mergeAll_of_below hr hu.below fun s hs => by
    have ⟨x, hx⟩ := hl s ((he s).mpr hs)
    exact ⟨x, hx, hu.member_below ((he s).mpr hs) hx⟩
  rw [hq, hu.unique (mergeAll_union hq).1 he]

theorem SyncReplica.mergeAll_valid (hr : r.Valid) (h : r.mergeAll ss = .ok q) : q.Valid := by
  obtain ⟨hu, hl⟩ := mergeAll_union h
  obtain ⟨q', hq, hv, _⟩ := mergeAll_of_below hr hu.below fun s hs => by
    have ⟨x, hx⟩ := hl s hs
    exact ⟨x, hx, hu.member_below hs hx⟩
  cases h.symm.trans hq
  exact hv

end MergeAll

theorem SyncReplica.load_snapshot_eq {r : SyncReplica} {a} (h : load r.snapshot a = .ok q) :
    q = { r with actor := a } := by
  have ⟨_, hd, ha, hv, hf, _⟩ := load_eq_ok.mp h
  rw [snapshot, Platform.loadDocument_save, Option.some.injEq] at hd
  refine SyncReplica.ext hd.symm ha hv (hf.trans ?_)
  cases hr : r.fixed <;> simp [snapshot, hr]

-- Every resource of a projection is recorded with its presence.
def SyncProjection.Recorded (p : SyncProjection) : Prop :=
  ∀ f : SyncFieldId, f.key ∈ p.values →
    p.values[(SyncFieldId.presence f.resource).key]? = some (.bool true)

namespace SyncProjection

omit [Platform]

theorem Recorded.insert (h : p.Recorded)
    (hp : p.values[(SyncFieldId.presence ρ).key]? = some (.bool true))
    (hf : field ≠ SyncFieldId.present) (value) : (p.insert ρ field value).Recorded := by
  intro g hg
  have hne {σ : SyncResourceId} : SyncFieldId.key ⟨ρ, field⟩ ≠ (SyncFieldId.presence σ).key :=
    fun hk => hf (congrArg SyncFieldId.field (SyncFieldId.key_injective hk))
  simp only [SyncProjection.insert, ExtTreeMap.mem_insert, ExtTreeMap.getElem?_insert,
    Std.compare_eq_iff_eq, if_neg hne] at hg ⊢
  rcases hg with hg | hg
  · cases SyncFieldId.key_injective hg
    exact hp
  · exact h g hg

theorem Recorded.insert_presence (h : p.Recorded) (ρ : SyncResourceId) :
    (p.insert ρ SyncFieldId.present (.bool true)).Recorded := by
  intro g hg
  simp only [SyncProjection.insert, ExtTreeMap.mem_insert, ExtTreeMap.getElem?_insert,
    Std.compare_eq_iff_eq] at hg ⊢
  split
  case isTrue => rfl
  case isFalse hn =>
    refine h g (hg.resolve_left fun hk => hn ?_)
    cases SyncFieldId.key_injective hk
    rfl

theorem Recorded.record (h : p.Recorded) (kind id fields) :
    (p.record kind id fields).2.Recorded := by
  have hgo (ρ members) (p : SyncProjection) (h : p.Recorded)
      (hp : p.values[(SyncFieldId.presence ρ).key]? = some (.bool true)) :
      (record.go ρ members p).2.Recorded := by
    induction members generalizing p
    case nil => exact h
    case cons m members hi =>
      have ⟨field, value⟩ := m
      simp only [record.go]
      split
      case isTrue => exact h
      case isFalse hf =>
        have hne : field ≠ SyncFieldId.present := by
          rintro rfl
          exact hf (by decide +kernel)
        have hi' := hi _ (h.insert hp hne value)
        refine hi' ((h.insert hp hne value) ⟨ρ, field⟩ ?_)
        simp [SyncProjection.insert]
  simp only [SyncProjection.record]
  split
  case h_1 => exact h
  case h_2 members _ =>
    split
    case isTrue => exact h
    split
    case isTrue => exact h
    refine hgo ⟨kind, id⟩ members _ (h.insert_presence ⟨kind, id⟩) ?_
    exact h.insert_presence ⟨kind, id⟩ (.presence ⟨kind, id⟩) (by
      simp [SyncProjection.insert, SyncFieldId.presence])

end SyncProjection

namespace Prepare

section Projections

omit [Platform]

theorem mem_unbased {ρ} : ρ ∈ unbased baseline current ↔ (SyncFieldId.presence ρ).Valid ∧
    (SyncFieldId.presence ρ).key ∈ current.values ∧ (SyncFieldId.presence ρ).key ∉ baseline := by
  simp only [unbased, List.mem_filterMap, ExtTreeMap.mem_keys, Option.bind_eq_bind,
    Option.bind_eq_some_iff, SyncFieldId.fromKey_eq_some, Option.ite_none_right_eq_some,
    Bool.and_eq_true, beq_iff_eq, Bool.not_eq_true', Option.some.injEq]
  constructor
  case mp =>
    rintro ⟨_, hk, f, ⟨hv, rfl⟩, ⟨hp, hn⟩, rfl⟩
    rw [← SyncFieldId.eq_presence hp]
    exact ⟨hv, hk, by simpa [← ExtTreeMap.contains_iff_mem] using hn⟩
  case mpr =>
    rintro ⟨hv, hk, hn⟩
    exact ⟨_, hk, .presence ρ, ⟨hv, rfl⟩, ⟨rfl, by simpa [← ExtTreeMap.contains_iff_mem] using hn⟩,
      rfl⟩

theorem mem_of_mem_ordinary (h : k ∈ (ordinary baseline current).values) : k ∈ current.values :=
  ExtTreeMap.mem_of_mem_filter h

theorem getElem?_of_ordinary {v} (h : (ordinary baseline current).values[k]? = some v) :
    current.values[k]? = some v := by
  rw [ordinary, getElem?_filter_key _ fun key =>
    !(SyncFieldId.fromKey key).any ((unbased baseline current).contains ·.resource)] at h
  exact (Option.ite_none_right_eq_some.mp h).2

theorem getElem?_ordinary (hv : f.Valid) :
    (ordinary baseline current).values[f.key]? =
      if f.resource ∈ unbased baseline current then none else current.values[f.key]? := by
  rw [ordinary, getElem?_filter_key _ fun key =>
    !(SyncFieldId.fromKey key).any ((unbased baseline current).contains ·.resource)]
  simp [SyncFieldId.fromKey_key hv]

theorem getElem?_independent {v} :
    (independent baseline current gives).values[k]? = some v ↔ current.values[k]? = some v ∧
      ∃ f : SyncFieldId, f.Valid ∧ f.key = k ∧ f.resource ∈ unbased baseline current ∧
        ¬gives f.resource := by
  rw [independent, getElem?_filter_key _ fun key => (SyncFieldId.fromKey key).any fun field =>
    (unbased baseline current).contains field.resource && !gives field.resource]
  simp only [Option.any_eq_true, Option.ite_none_right_eq_some, SyncFieldId.fromKey_eq_some,
    Bool.and_eq_true, List.contains_iff_mem, Bool.not_eq_true', and_assoc, Bool.not_eq_true]
  exact and_comm

theorem independent_keys (k : String)
    (h : k ∈ (independent baseline current gives).values) : ∃ f, SyncFieldId.fromKey k = some f := by
  have ⟨_, hv⟩ := mem_iff_getElem?_eq_some.mp h
  have ⟨_, f, hf, hk, _⟩ := getElem?_independent.mp hv
  exact ⟨f, SyncFieldId.fromKey_eq_some.mpr ⟨hf, hk⟩⟩

end Projections

section Remotes

theorem mem_remoteResources {resources} (h : remoteResources first remotes = .ok resources) {ρ} :
    ρ ∈ resources ↔ first ∧ ∃ s ∈ remotes, ∃ x, load s .nil = .ok x ∧ x.Written (.presence ρ) := by
  unfold remoteResources at h
  split at h
  case isFalse hf =>
    cases h
    simp [hf]
  case isTrue hf =>
    simp only [Fallible.bind_eq_ok, Fallible.pure_eq_ok] at h
    obtain ⟨fs, hm, hr⟩ := h
    simp only [← hr, hf, true_and, List.mem_filterMap, List.mem_flatten, Fallible.mem_of_mapM hm,
      Fallible.bind_eq_ok, Option.ite_none_right_eq_some, beq_iff_eq, Option.some.injEq]
    constructor
    case mp =>
      rintro ⟨f, ⟨l, ⟨s, hs, x, hx, hl⟩, hf⟩, hp, rfl⟩
      exact ⟨s, hs, x, hx, SyncFieldId.eq_presence hp ▸ ((mem_fields hl).mp hf).2⟩
    case mpr =>
      rintro ⟨s, hs, x, hx, hw⟩
      have hr := (load_eq_ok.mp hx).2.2.2.2.2.readable
      obtain ⟨l, hl⟩ := exists_fields.mpr hr.keys
      exact ⟨.presence ρ, ⟨l, ⟨s, hs, x, hx, hl⟩, (mem_fields hl).mpr ⟨hr.valid hw, hw⟩⟩, rfl, rfl⟩

theorem exists_remoteResources (h : ∀ s ∈ remotes, ∃ x, load s .nil = .ok x) :
    ∃ resources, remoteResources first remotes = .ok resources := by
  unfold remoteResources
  split
  case isFalse => exact ⟨[], rfl⟩
  have ⟨fs, hm⟩ : ∃ fs, remotes.mapM (fun remote => do (← load remote .nil).fields) = .ok fs := by
    rw [Fallible.exists_mapM_eq_ok]
    intro s hs
    have ⟨x, hx⟩ := h s hs
    have ⟨l, hl⟩ := exists_fields.mpr (load_eq_ok.mp hx).2.2.2.2.2.readable.keys
    exact ⟨l, Fallible.bind_eq_ok.mpr ⟨x, hx, hl⟩⟩
  exact ⟨_, Fallible.bind_eq_ok.mpr ⟨fs, hm, rfl⟩⟩

-- On the first join a resource with its default is not seeded when a remote knows it.
structure GivesWay (localSnapshot : Option ReplicaSnapshot) (scope : SyncScope)
    (current : SyncProjection) (remotes : List ReplicaSnapshot) (ρ : SyncResourceId) : Prop where
  first : localSnapshot = none
  default : (scope.ai ∧ ρ ∈ defaultResources current.values) ∨
    ∃ v, current.values[SyncFieldId.key ⟨ρ, "value"⟩]? = some v ∧ isDefaultPreference ρ v
  remote : ∃ s ∈ remotes, ∃ x, load s .nil = .ok x ∧ x.Written (.presence ρ)

theorem GivesWay.mono {localSnapshot scope current ρ}
    (h : GivesWay localSnapshot scope current remotes ρ) (hm : ∀ s ∈ remotes, s ∈ remotes') :
    GivesWay localSnapshot scope current remotes' ρ := by
  have ⟨s, hs, hx⟩ := h.remote
  exact ⟨h.first, h.default, s, hm s hs, hx⟩

theorem defaultOnJoin_iff {scope current resources}
    (h : remoteResources localSnapshot.isNone remotes = .ok resources) {ρ} :
    defaultOnJoin localSnapshot.isNone scope current resources ρ ↔
      GivesWay localSnapshot scope current remotes ρ := by
  simp only [defaultOnJoin, Bool.and_eq_true, Bool.or_eq_true, List.contains_iff_mem,
    mem_remoteResources h, Option.any_eq_true, Option.isNone_iff_eq_none, and_assoc]
  constructor
  case mp =>
    rintro ⟨hf, hd, _, hr⟩
    exact ⟨hf, hd, hr⟩
  case mpr => exact fun h => ⟨h.first, h.default, h.first, h.remote⟩

end Remotes

section Seed

variable {r : SyncReplica}

omit [Platform] in
theorem join_new (r : SyncReplica) (a : Uuid) : r.join (new a) (.empty _) = r := by
  refine SyncReplica.ext (Document.join_eq_left (h := .empty _) (Document.empty_le _)) rfl ?_ ?_
  · refine ExtTreeMap.ext_getElem? fun id => ?_
    simp [join, new, ExtTreeMap.getElem?_union]
  · simp [join, new]

omit [Platform] in
theorem captured_empty (h : seeded.values.isEmpty) : r.Captured ∅ seeded scope [] := by
  have hd (ρ) : ¬r.Deletes ∅ seeded scope ρ := fun hd => by simpa using hd.known
  have he (f) : ¬r.Edits ∅ seeded scope f := by
    intro he
    rw [ExtTreeMap.isEmpty_iff] at h
    simpa [Observed, h] using he.observed
  exact ⟨by simp, fun ρ h => absurd h (hd ρ), fun f h => absurd h (he f),
    fun f h => absurd h (he f)⟩

theorem mergeSeed_eq_join (h : mergeSeed r seeded scope entropy = .ok r') :
    ∃ ws ha, (new entropy.seed).Captured ∅ seeded scope ws ∧
      r.Compatible ((new entropy.seed).performAll entropy.seedWrites ws) ∧
      r' = r.join ((new entropy.seed).performAll entropy.seedWrites ws) ha := by
  unfold mergeSeed at h
  split at h
  case isTrue he =>
    cases h
    refine ⟨[], .empty _, captured_empty he, fun id v w _ hw => ?_, (join_new r entropy.seed).symm⟩
    simp [performAll, new] at hw
  case isFalse =>
    simp only [Fallible.bind_eq_ok, succeed_eq_ok] at h
    obtain ⟨seed, ⟨x, hs⟩, _, hm⟩ := h
    obtain ⟨ws, rfl, hw⟩ := capture_ok hs
    obtain ⟨q, ha, hl, hc, rfl, _⟩ := merge_eq_ok hm
    cases load_snapshot_eq hl
    exact ⟨ws, ha, hw, hc, rfl⟩

theorem mergeSeed_valid (hr : r.Valid) (h : mergeSeed r seeded scope entropy = .ok r') :
    r'.Valid := by
  unfold mergeSeed at h
  split at h
  case isTrue =>
    cases h
    exact hr
  case isFalse =>
    simp only [Fallible.bind_eq_ok, succeed_eq_ok] at h
    have ⟨_, _, _, hm⟩ := h
    exact (merge_eq_ok hm).choose_spec.choose_spec.2.2.2

end Seed

-- The arguments of a call.
structure Request where
  actor : Uuid
  localSnapshot : Option ReplicaSnapshot := none
  baseline : SyncValues := ∅
  current : SyncProjection
  remotes : List ReplicaSnapshot := []
  scope : SyncScope := {}
  entropy : Entropy

namespace Request

def run (c : Request) : Except SyncError SyncPlan :=
  prepare c.actor c.localSnapshot c.baseline c.current c.remotes c.scope c.entropy

-- The replica that a call opens, what it writes to it and to the seed, and the replica it ends with.
structure Prepared (c : Request) (r : SyncReplica) (ws us : List Write) (q : SyncReplica) :
    Prop where
  opened : openReplica c.actor c.localSnapshot = .ok r
  captured : r.Captured c.baseline (ordinary c.baseline c.current) c.scope ws
  seeded : ∃ gives : SyncResourceId → Bool,
    (∀ ρ, gives ρ ↔ GivesWay c.localSnapshot c.scope c.current c.remotes ρ) ∧
      (new c.entropy.seed).Captured ∅ (independent c.baseline c.current gives) c.scope us
  loaded : ∀ s ∈ c.remotes, ∃ x, load s .nil = .ok x
  union : ∃ ha, ((r.performAll c.entropy.writes ws).join
    ((new c.entropy.seed).performAll c.entropy.seedWrites us) ha).Union c.remotes q

-- What a call that succeeds yields.
structure Yields (c : Request) (plan : SyncPlan) (r : SyncReplica) (ws us : List Write)
    (q : SyncReplica) : Prop extends Prepared c r ws us q where
  valid : q.Valid
  replica : plan.replica = q.snapshot
  effective : q.materialize c.current.values c.scope = .ok plan.effective
  conflicts : q.conflicts = .ok plan.conflicts
  expected : plan.expectedLocal = c.current

theorem run_eq_ok {c : Request} {plan} : c.run = .ok plan ↔ ∃ r resources x r₁ r₂ q,
    openReplica c.actor c.localSnapshot = .ok r ∧
    remoteResources c.localSnapshot.isNone c.remotes = .ok resources ∧
    r.capture c.baseline (ordinary c.baseline c.current) c.scope c.entropy.writes = (.ok x, r₁) ∧
    mergeSeed r₁ (independent c.baseline c.current
      (defaultOnJoin c.localSnapshot.isNone c.scope c.current resources)) c.scope c.entropy =
      .ok r₂ ∧
    r₂.mergeAll c.remotes = .ok q ∧ q.materialize c.current.values c.scope = .ok plan.effective ∧
    q.conflicts = .ok plan.conflicts ∧ plan.replica = q.snapshot ∧
    plan.expectedLocal = c.current ∧ plan.scope = c.scope := by
  simp only [run, prepare, Fallible.bind_eq_ok, Fallible.pure_eq_ok, succeed_eq_ok]
  constructor
  case mp =>
    rintro ⟨r, hr, rs, hrs, r₁, ⟨x, hx⟩, r₂, hs, q, hm, R, hR, m, hmat, cs, hcs, rfl⟩
    exact ⟨r, rs, x, r₁, r₂, q, hr, hrs, hx, hs, hm, Fallible.bind_eq_ok.mpr ⟨R, hR, hmat⟩,
      Fallible.bind_eq_ok.mpr ⟨R, hR, hcs⟩, rfl, rfl, rfl⟩
  case mpr =>
    rintro ⟨r, rs, x, r₁, r₂, q, hr, hrs, hx, hs, hm, hmat, hcs, h₁, h₂, h₃⟩
    have ⟨R, hR, hmat⟩ := Fallible.bind_eq_ok.mp hmat
    have ⟨R', hR', hcs⟩ := Fallible.bind_eq_ok.mp hcs
    cases hR.symm.trans hR'
    refine ⟨r, hr, rs, hrs, r₁, ⟨x, hx⟩, r₂, hs, q, hm, R, hR, _, hmat, _, hcs, ?_⟩
    cases plan
    simp_all

-- The actor of the seed is new.
structure Fresh (c : Request) : Prop where
  actor : c.actor ≠ c.entropy.seed
  history : ∀ s, c.localSnapshot = some s ∨ s ∈ c.remotes → ∀ x, load s .nil = .ok x →
    ∀ i p, x.document.op? i = some p → i.actor ≠ c.entropy.seed

section Prepared

variable {c : Request} (h : c.Prepared r ws us q)
include h

theorem Prepared.op?_iff {i p} : q.document.op? i = some p ↔
    (r.performAll c.entropy.writes ws).document.op? i = some p ∨
      ((new c.entropy.seed).performAll c.entropy.seedWrites us).document.op? i = some p ∨
      ∃ s ∈ c.remotes, ∃ x, load s .nil = .ok x ∧ x.document.op? i = some p := by
  have ⟨ha, hu⟩ := h.union
  rw [hu.ops, op?_join, or_assoc]

omit h in
theorem actor_seed {i p}
    (hp : ((new c.entropy.seed).performAll c.entropy.seedWrites us).document.op? i = some p) :
    i.actor = c.entropy.seed := by
  rcases op?_performAll hp with hp | ⟨ha, _⟩
  · simp [new] at hp
  · exact ha

theorem Prepared.actor_local (hf : c.Fresh) {i p}
    (hp : (r.performAll c.entropy.writes ws).document.op? i = some p) :
    i.actor ≠ c.entropy.seed := by
  have ho := h.opened
  unfold openReplica at ho
  split at ho
  case h_1 s hs =>
    rcases op?_performAll hp with hp | ⟨ha, _⟩
    · exact hf.history s (.inl hs) _ (load_withActor ho) i p hp
    · rw [ha, (load_eq_ok.mp ho).2.2.1]
      exact hf.actor
  case h_2 hs =>
    cases ho
    rcases op?_performAll hp with hp | ⟨ha, _⟩
    · simp [new] at hp
    · exact ha ▸ hf.actor

theorem Prepared.visible_seed (hf : c.Fresh) {k i v}
    (hv : ((new c.entropy.seed).performAll c.entropy.seedWrites us).document.Visible k i v) :
    q.document.Visible k i v := by
  have ⟨p, hp, hk, hw⟩ := hv.held
  have ha := actor_seed hp
  refine ⟨⟨p, h.op?_iff.mpr (.inr (.inl hp)), hk, hw⟩, ?_⟩
  rintro ⟨j, p', hp', hj⟩
  rcases h.op?_iff.mp hp' with hp' | hp' | ⟨s, hs, x, hx, hp'⟩
  · have ⟨_, hi, _⟩ := Document.pred_held hp' hj
    exact h.actor_local hf hi ha
  · exact hv.current ⟨j, p', hp', hj⟩
  · have ⟨_, hi, _⟩ := Document.pred_held hp' hj
    exact hf.history s (.inr hs) x hx i _ hi ha

theorem Prepared.holds_seed (hf : c.Fresh) {f w} (hw : lastOn us f = some w) :
    q.Holds f w.referent := by
  have ⟨i, v, hv, hr⟩ := (only_performAll (new c.entropy.seed) c.entropy.seedWrites hw).holds
  exact ⟨i, v, h.visible_seed hf hv, hr⟩

-- What the remotes show is overwritten only by the replica that was opened, as long as nothing is
-- captured on the register.
theorem Prepared.visible_remote (hf : c.Fresh) (hn : ∀ w ∈ ws, w.field ≠ f) {s x i v}
    (hs : s ∈ c.remotes) (hx : load s .nil = .ok x) (hv : x.document.Visible f.key i v)
    (ho : ∀ s ∈ c.remotes, ∀ x, load s .nil = .ok x → ¬x.document.Overwritten i)
    (hr : ¬r.document.Overwritten i) : q.document.Visible f.key i v := by
  have ⟨p, hp, hk, hw⟩ := hv.held
  have hq := h.op?_iff.mpr (.inr (.inr ⟨s, hs, x, hx, hp⟩))
  refine ⟨⟨p, hq, hk, hw⟩, ?_⟩
  rintro ⟨j, p', hp', hj⟩
  rcases h.op?_iff.mp hp' with hp' | hp' | ⟨s', hs', x', hx', hp'⟩
  · have ⟨p₀, hp₀, hk₀, _⟩ := Document.pred_held hp' hj
    cases hq.symm.trans (h.op?_iff.mpr (.inl hp₀))
    rcases op?_performAll hp' with hp' | ⟨_, w, hw, hwk, _⟩
    · exact hr ⟨j, p', hp', hj⟩
    · exact hn w hw (SyncFieldId.key_injective (hwk.symm.trans (hk₀.symm.trans hk)))
  · have ⟨p₀, hp₀, _⟩ := Document.pred_held hp' hj
    exact hf.history s (.inr hs) x hx i p hp (actor_seed hp₀)
  · exact ho s' hs' x' hx' ⟨j, p', hp', hj⟩

theorem Prepared.reads_seed (hS : Collisionless S)
    (hb : ∀ b, SyncValue.bool b ∈ S)
    (hc : ∀ (k : String) v, c.current.values[k]? = some v → v ∈ S) {f v}
    (hw : lastOn us f = some ⟨f, some v⟩) : q.Reads (digest v.bytes) (some v) := by
  have ⟨ha, hu⟩ := h.union
  have ⟨gives, _, hcap⟩ := h.seeded
  have hi : WritesIn us S := by
    refine Captures.writesIn hb (fun k v hv => ?_) hcap.reasons
    exact hc k v (getElem?_independent.mp hv).1
  have hv : ((new c.entropy.seed).performAll c.entropy.seedWrites us).values[digest v.bytes]? =
      some v :=
    getElem?_performAll_of_mem hS (by simp [Stores, new]) hi (valid_new _).digests
      (lastOn_mem hw).1 rfl
  refine .value (digest_ne_deleted _) ((hu.values ..).mpr (.inl ?_))
  simp [join, ExtTreeMap.getElem?_union, hv]

theorem Prepared.seeds_unbased {w} (hw : w ∈ us) :
    w.field.resource ∈ unbased c.baseline c.current := by
  have ⟨gives, _, hu⟩ := h.seeded
  have he {g} (he : (new c.entropy.seed).Edits ∅ (independent c.baseline c.current gives) c.scope g) :
      g.resource ∈ unbased c.baseline c.current := by
    have ho : g.key ∈ (independent c.baseline c.current gives).values :=
      he.observed.resolve_left (by simp)
    have ⟨v, hv⟩ := mem_iff_getElem?_eq_some.mp ho
    have ⟨_, g', _, hk, hm, _⟩ := getElem?_independent.mp hv
    exact SyncFieldId.key_injective hk ▸ hm
  cases hu.reasons w hw
  case deletion hd => simpa using hd.known
  case edit hg => exact he hg
  case presence g hg => exact he (g := g) hg

theorem Prepared.exists_merged :
    ∃ m, (new .nil).mergeAll c.remotes = .ok m ∧ (new .nil).Union c.remotes m := by
  obtain ⟨_, hu⟩ := h.union
  have hn : (new .nil).Below q := by
    refine ⟨Document.empty_le _, fun id v hv => ?_, fun hf => ?_⟩
    · simp [new] at hv
    · simp [new] at hf
  obtain ⟨m, hm, _⟩ := mergeAll_of_below (valid_new .nil) hn fun s hs => by
    obtain ⟨x, hx⟩ := h.loaded s hs
    exact ⟨x, hx, hu.member_below hs hx⟩
  exact ⟨m, hm, (mergeAll_union hm).1⟩

variable (hcur : c.current.Recorded)
include hcur

omit h in
theorem mem_unbased_of_mem (hv : f.Valid) (hm : f.key ∈ c.current.values)
    (hn : (SyncFieldId.presence f.resource).key ∉ c.baseline) :
    f.resource ∈ unbased c.baseline c.current :=
  mem_unbased.mpr ⟨hv.presence, mem_iff_getElem?_eq_some.mpr ⟨_, hcur f hm⟩, hn⟩

-- Nothing is captured on the registers of a resource that the baseline does not know.
theorem Prepared.not_captured {ρ} (hn : ∀ g : SyncFieldId, g.resource = ρ → g.key ∉ c.baseline)
    {w} (hw : w ∈ ws) : w.field.resource ≠ ρ := by
  rintro rfl
  have he {g : SyncFieldId} (hg : g.resource = w.field.resource)
      (he : r.Edits c.baseline (ordinary c.baseline c.current) c.scope g) : False := by
    have ho := he.observed.resolve_left (hn g hg)
    have hu := mem_unbased_of_mem hcur he.valid (mem_of_mem_ordinary ho) (hn (.presence _) hg)
    simp [mem_iff_getElem?_eq_some, getElem?_ordinary he.valid, hu] at ho
  cases h.captured.reasons w hw
  case deletion ρ hd => exact hn _ rfl hd.known
  case edit g hg => exact he rfl hg
  case presence g hg => exact he (g := g) rfl hg

theorem Prepared.seeds (hv : f.Valid) {v} (hf : c.current.values[f.key]? = some v)
    (hn : (SyncFieldId.presence f.resource).key ∉ c.baseline)
    (hg : ¬GivesWay c.localSnapshot c.scope c.current c.remotes f.resource)
    (hi : c.scope.includes f.resource.kind) (hs : supportsField f.resource.kind f.field) :
    lastOn us f = some ⟨f, some v⟩ := by
  have ⟨gives, hgw, hcap⟩ := h.seeded
  have hm := mem_iff_getElem?_eq_some.mpr ⟨v, hf⟩
  have hfi : (independent c.baseline c.current gives).values[f.key]? = some v :=
    getElem?_independent.mpr
      ⟨hf, f, hv, rfl, mem_unbased_of_mem hcur hv hm hn, (hgw _).not.mpr hg⟩
  have hmi := mem_iff_getElem?_eq_some.mpr ⟨v, hfi⟩
  have he : (new c.entropy.seed).Edits ∅ (independent c.baseline c.current gives) c.scope f :=
    ⟨hv, .inr hmi, ⟨hi, by simp [skips, new], hs⟩, .inr hmi, fun hd => by simpa using hd.known,
      .inl (by simp [hfi])⟩
  by_cases hp : f.field = SyncFieldId.present
  case pos =>
    have hl := hcap.presents f he
    rw [← SyncFieldId.eq_presence hp] at hl
    have ht := hcur f hm
    rw [← SyncFieldId.eq_presence hp, hf] at ht
    rw [hl, Option.some.inj ht]
  case neg => rw [hcap.edits f he hp, hfi]

theorem Prepared.effective (hS : Collisionless S)
    (hb : ∀ b, SyncValue.bool b ∈ S) (hc : ∀ (k : String) v, c.current.values[k]? = some v → v ∈ S)
    (hfr : c.Fresh) {m} (hm : q.Materialized c.current.values c.scope m) {v}
    (hf : c.current.values[f.key]? = some v)
    (hn : (SyncFieldId.presence f.resource).key ∉ c.baseline)
    (hg : ¬GivesWay c.localSnapshot c.scope c.current c.remotes f.resource) :
    m[f.key]? = some v := by
  by_cases hv : f.Valid
  case neg => rw [hm.foreign _ (SyncFieldId.fromKey_key_eq_none hv), hf]
  case pos =>
    by_cases hl : q.Live c.current.values c.scope f.resource ∧ ∃ w, q.Settled f w
    case pos =>
      have ⟨hl, w, hs⟩ := hl
      have hw := h.seeds hcur hv hf hn hg hl.inScope.included hs.supported
      have ⟨d, ho, hr⟩ := hs.value
      cases ho.unique _ (h.holds_seed hfr hw)
      rw [hm.settled f w hl hs, hr.unique (h.reads_seed hS hb hc hw)]
    case neg =>
      rw [hm.kept f (fun hr => ?_) hl, hf]
      have hi := hr.inScope.included
      have hp := hcur f (mem_iff_getElem?_eq_some.mpr ⟨v, hf⟩)
      have hw := h.seeds (f := .presence f.resource) hcur hv.presence hp hn hg hi
        (supportsField_present hi)
      have ⟨d, w, ho, hd, hw'⟩ := hr.gone
      cases ho.unique _ (h.holds_seed hfr hw)
      cases hd.symm.trans (h.reads_seed hS hb hc hw).held
      simp at hw'

end Prepared

-- The values of the device are in a set.
structure Within (c : Request) (S : Set SyncValue) : Prop where
  replica : ∀ s, c.localSnapshot = some s → ∀ (id : String) v, s.values[id]? = some v → v ∈ S
  current : ∀ (k : String) v, c.current.values[k]? = some v → v ∈ S

section Valid

variable {c : Request} (hc : c.Within S)
  (ho : openReplica c.actor c.localSnapshot = .ok r)
include ho

theorem opened_valid : r.Valid ∧ r.actor = c.actor := by
  unfold openReplica at ho
  split at ho
  case h_1 s hs => exact ⟨(load_eq_ok.mp ho).2.2.2.2.2, (load_eq_ok.mp ho).2.2.1⟩
  cases ho
  exact ⟨valid_new _, rfl⟩

include hc

theorem Within.stores : r.Stores S := by
  unfold openReplica at ho
  split at ho
  case h_1 s hs =>
    intro id v hv
    rw [(load_eq_ok.mp ho).2.2.2.1] at hv
    exact hc.replica s hs id v hv
  case h_2 =>
    cases ho
    simp [Stores, new]

theorem Within.captured (hS : Collisionless S) (hb : ∀ b, SyncValue.bool b ∈ S) {x r₁}
    (h : r.capture c.baseline (ordinary c.baseline c.current) c.scope c.entropy.writes =
      (.ok x, r₁)) : r₁.Valid ∧ r₁.Stores S := by
  have hcur (k : String) (v) (hv : (ordinary c.baseline c.current).values[k]? = some v) : v ∈ S :=
    hc.current k v (getElem?_of_ordinary hv)
  have hs := hc.stores ho
  have hv : (r.capture c.baseline (ordinary c.baseline c.current) c.scope
      c.entropy.writes).2.Valid :=
    (opened_valid ho).1.capture hb hcur hS hs
  rw [h] at hv
  obtain ⟨ws, rfl, hw⟩ := capture_ok h
  exact ⟨hv, hs.performAll (Captures.writesIn hb hcur hw.reasons)⟩

omit hc in
theorem yields_of_stages {plan resources x r₁ r₂ q}
    (hrs : remoteResources c.localSnapshot.isNone c.remotes = .ok resources)
    (hx : r.capture c.baseline (ordinary c.baseline c.current) c.scope c.entropy.writes =
      (.ok x, r₁))
    (hs : mergeSeed r₁ (independent c.baseline c.current
      (defaultOnJoin c.localSnapshot.isNone c.scope c.current resources)) c.scope c.entropy =
      .ok r₂)
    (hm : r₂.mergeAll c.remotes = .ok q) (hq : q.Valid)
    (hmat : q.materialize c.current.values c.scope = .ok plan.effective)
    (hcs : q.conflicts = .ok plan.conflicts) (hp : plan.replica = q.snapshot)
    (he : plan.expectedLocal = c.current) : ∃ ws us, c.Yields plan r ws us q := by
  obtain ⟨ws, rfl, hw⟩ := capture_ok hx
  obtain ⟨us, ha, hu, _, rfl⟩ := mergeSeed_eq_join hs
  have ⟨hun, hl⟩ := mergeAll_union hm
  exact ⟨ws, us, ⟨ho, hw, ⟨_, fun ρ => defaultOnJoin_iff hrs, hu⟩, hl, ha, hun⟩, hq, hp, hmat, hcs, he⟩

omit ho in
theorem Within.yields (hS : Collisionless S) (hb : ∀ b, SyncValue.bool b ∈ S) {plan}
    (h : c.run = .ok plan) : ∃ r ws us q, c.Yields plan r ws us q := by
  have ⟨r, rs, x, r₁, r₂, q, hr, hrs, hx, hs, hm, hmat, hcs, hp, he, _⟩ := run_eq_ok.mp h
  have hq := mergeAll_valid (mergeSeed_valid (hc.captured hr hS hb hx).1 hs) hm
  have ⟨ws, us, hy⟩ := yields_of_stages hr hrs hx hs hm hq hmat hcs hp he
  exact ⟨r, ws, us, q, hy⟩

omit ho in
theorem Within.run_congr (hS : Collisionless S) (hb : ∀ b, SyncValue.bool b ∈ S) {plan}
    (h : c.run = .ok plan) {remotes} (he : ∀ s, s ∈ c.remotes ↔ s ∈ remotes) :
    { c with remotes }.run = .ok plan := by
  have ⟨r, rs, x, r₁, r₂, q, hr, hrs, hx, hs, hm, hp⟩ := run_eq_ok.mp h
  have ⟨rs', hrs'⟩ : ∃ rs', remoteResources c.localSnapshot.isNone remotes = .ok rs' :=
    exists_remoteResources fun s hs => (mergeAll_union hm).2 s ((he s).mpr hs)
  have hd : defaultOnJoin c.localSnapshot.isNone c.scope c.current rs =
      defaultOnJoin c.localSnapshot.isNone c.scope c.current rs' := by
    funext ρ
    rw [Bool.eq_iff_iff, defaultOnJoin_iff hrs, defaultOnJoin_iff hrs']
    exact ⟨fun hg => hg.mono fun s => (he s).mp, fun hg => hg.mono fun s => (he s).mpr⟩
  have hv := mergeSeed_valid (hc.captured hr hS hb hx).1 hs
  exact run_eq_ok.mpr
    ⟨r, rs', x, r₁, r₂, q, hr, hrs', hx, hd ▸ hs, mergeAll_congr hv hm he, hp⟩

end Valid

end Request

end Prepare

end NyaTerm

import NyaTerm.Sync.Theorems.Capture

open Std Causal

namespace NyaTerm.SyncReplica

open SyncFieldId Fallible ExtTreeMap

-- The resources that materializing looks at.
structure InScope (r : SyncReplica) (scope : SyncScope) (ρ : SyncResourceId) : Prop where
  included : scope.includes ρ.kind
  seen : ¬r.skips (.presence ρ)

-- Some supported register of the resource is reported as a conflict.
def Blocked (r : SyncReplica) (ρ : SyncResourceId) : Prop :=
  ∃ c, r.Reported c ∧ supportsField c.field.resource.kind c.field.field ∧ c.field.resource = ρ

structure Removed (r : SyncReplica) (scope : SyncScope) (ρ : SyncResourceId) : Prop where
  inScope : r.InScope scope ρ
  gone : r.Gone ρ

-- The resource is present, and it is known locally or nothing stands against adding it.
structure Live (r : SyncReplica) (localValues : SyncValues) (scope : SyncScope)
    (ρ : SyncResourceId) : Prop where
  inScope : r.InScope scope ρ
  undisputed : ¬r.Disputed (.presence ρ)
  present : ¬r.Gone ρ
  admitted : (SyncFieldId.presence ρ).key ∈ localValues ∨ ¬r.Blocked ρ

variable {r : SyncReplica}

theorem Live.not_removed {l s ρ} (h : r.Live l s ρ) : ¬r.Removed s ρ :=
  fun h' => h.present h'.gone

-- A supported field has one value, or is deleted.
structure Settled (r : SyncReplica) (f : SyncFieldId) (v : Option SyncValue) : Prop where
  supported : supportsField f.resource.kind f.field
  value : ∃ d, r.Only f d ∧ r.Reads d v

theorem Settled.unique {f v w} (h₁ : r.Settled f v) (h₂ : r.Settled f w) :
    v = w := by
  have ⟨d, hd, hv⟩ := h₁.value
  have ⟨e, he, hw⟩ := h₂.value
  cases hd.eq he
  exact hv.unique hw

theorem Settled.not_disputed {f v} (h : r.Settled f v) : ¬r.Disputed f :=
  have ⟨_, ho, _⟩ := h.value
  ho.not_disputed

theorem Settled.written {f v} (h : r.Settled f v) : r.Written f :=
  have ⟨_, ho, _⟩ := h.value
  ho.holds.written

theorem Gone.written {ρ} : r.Gone ρ → r.Written (.presence ρ)
  | ⟨_, _, ho, _⟩ => ho.holds.written

-- What materializing yields, field by field.
structure Materialized (r : SyncReplica) (localValues : SyncValues) (scope : SyncScope)
    (m : SyncValues) : Prop where
  foreign : ∀ k, SyncFieldId.fromKey k = none → m[k]? = localValues[k]?
  removed : ∀ f : SyncFieldId, f.Valid → r.Removed scope f.resource → m[f.key]? = none
  settled : ∀ (f : SyncFieldId) v, r.Live localValues scope f.resource → r.Settled f v → m[f.key]? = v
  kept : ∀ f : SyncFieldId, ¬r.Removed scope f.resource →
    ¬(r.Live localValues scope f.resource ∧ ∃ v, r.Settled f v) → m[f.key]? = localValues[f.key]?

theorem Materialized.unique {l scope m m'} (h : r.Materialized l scope m)
    (h' : r.Materialized l scope m') : m = m' := by
  apply ext_getElem?
  intro k
  cases hk : fromKey k
  case none => rw [h.foreign k hk, h'.foreign k hk]
  case some f =>
    have ⟨hv, hf⟩ := fromKey_eq_some.mp hk
    subst hf
    by_cases hr : r.Removed scope f.resource
    · rw [h.removed f hv hr, h'.removed f hv hr]
    by_cases hs : r.Live l scope f.resource ∧ ∃ v, r.Settled f v
    · have ⟨hl, v, hs⟩ := hs
      rw [h.settled f v hl hs, h'.settled f v hl hs]
    · rw [h.kept f hr hs, h'.kept f hr hs]

theorem materializeField_eq_ok {ρ name cs o}
    (hc : r.candidates ⟨ρ, name⟩ = .ok cs) (h : r.materializeField ρ (name, cs) = .ok o) {k v} :
    o = some (k, v) ↔ k = key ⟨ρ, name⟩ ∧ r.Settled ⟨ρ, name⟩ v := by
  have ho : r.Settled ⟨ρ, name⟩ v → supportsField ρ.kind name ∧ distinct cs = 1 := by
    intro hs
    have ⟨d, hd, _⟩ := hs.value
    exact ⟨hs.supported, (distinct_eq_one_iff hc).mpr ⟨d, hd⟩⟩
  simp only [materializeField] at h
  split at h
  case isTrue hn =>
    cases h
    simp only [reduceCtorEq, false_iff, not_and]
    intro _ hs
    simp [ho hs] at hn
  case isFalse hn =>
    simp only [Bool.or_eq_true, Bool.not_eq_true', decide_eq_true_eq, not_or, Decidable.not_not,
      Bool.not_eq_false] at hn
    have ⟨d, hd⟩ := (distinct_eq_one_iff hc).mp hn.2
    split at h
    case h_1 => simp [distinct] at hn
    case h_2 c cs =>
      have hcd := hd.candidate hc (c := c) (by simp)
      split at h
      case isTrue hx =>
        cases h
        have hs : r.Settled ⟨ρ, name⟩ none := ⟨hn.1, d, hd, hcd ▸ hx ▸ .tombstone⟩
        simp only [Option.some.injEq, Prod.mk.injEq, eq_comm (a := k)]
        refine and_congr_right fun _ => ⟨?_, hs.unique⟩
        rintro rfl
        exact hs
      case isFalse hx =>
        simp only [bind_eq_ok, pure_eq_ok, candidateValue_eq_ok] at h
        have ⟨w, hw, h⟩ := h
        have hs : r.Settled ⟨ρ, name⟩ (some w) :=
          ⟨hn.1, d, hd, .value (hcd ▸ hx) (hcd ▸ hw)⟩
        simp only [← h, Option.some.injEq, Prod.mk.injEq, eq_comm (a := k)]
        refine and_congr_right fun _ => ⟨?_, hs.unique⟩
        rintro rfl
        exact hs

section Registers

variable (h : r.registers = .ok R)
  {blocked : List SyncResourceId}
  (hb : ∀ ρ, ρ ∈ blocked ↔ r.Blocked ρ)
include h hb

theorem materializeResource_spec {ρ fields o} (hρ : R[ρ]? = some fields)
    (ho : r.materializeResource localValues scope blocked ρ fields = .ok o) :
    match o with
    | .keep => ¬r.Removed scope ρ ∧ ¬r.Live localValues scope ρ
    | .delete => r.Removed scope ρ
    | .update us => r.Live localValues scope ρ ∧
        ∀ k v, (k, v) ∈ us ↔ ∃ name, k = key ⟨ρ, name⟩ ∧ r.Settled ⟨ρ, name⟩ v := by
  unfold materializeResource at ho
  split at ho
  case isTrue hi =>
    cases ho
    have hn : ¬r.InScope scope ρ := fun h => by simp [h.included, h.seen] at hi
    exact ⟨fun hr => hn hr.inScope, fun hl => hn hl.inScope⟩
  case isFalse hi =>
    have hs : r.InScope scope ρ := by constructor <;> simp_all
    split at ho
    case h_1 => contradiction
    case h_2 cs hp =>
      obtain ⟨_, hp⟩ := (getElem?_registers h hρ).mp hp
      split at ho
      case isTrue hd =>
        cases ho
        have hd := (one_lt_distinct_iff hp).mp hd
        exact ⟨fun hr => hr.gone.not_disputed hd, fun hl => hl.undisputed hd⟩
      case isFalse hd =>
        rw [gt_iff_lt, one_lt_distinct_iff hp] at hd
        simp only [bind_eq_ok] at ho
        obtain ⟨b, hx, ho⟩ := ho
        have hg := boolean_eq_false hp hd hx
        split at ho
        case isTrue hf =>
          cases ho
          exact ⟨hs, hg.mp hf⟩
        case isFalse hf =>
          rw [hg] at hf
          split at ho
          case isTrue hk =>
            cases ho
            rw [hb] at hk
            refine ⟨fun hr => hf hr.gone, fun hl => ?_⟩
            exact hl.admitted.elim hk.1 (· hk.2)
          case isFalse hk =>
            rw [hb, not_and] at hk
            simp only [bind_eq_ok, pure_eq_ok] at ho
            obtain ⟨us, hu, ho⟩ := ho
            subst ho
            refine ⟨⟨hs, hd, hf, ?_⟩, fun k v => ?_⟩
            · by_cases hm : (presence ρ).key ∈ localValues
              · exact .inl hm
              · exact .inr (hk hm)
            · have hm {u} : some u ∈ us ↔ ∃ name cs, fields[name]? = some cs ∧
                  r.materializeField ρ (name, cs) = .ok (some u) := by
                simp [mem_of_mapM hu]
              simp only [List.mem_filterMap, id_eq, exists_eq_right, hm, getElem?_registers h hρ]
              constructor
              case mp =>
                rintro ⟨name, cs, ⟨_, hc⟩, hf⟩
                exact ⟨name, (materializeField_eq_ok hc hf).mp rfl⟩
              case mpr =>
                rintro ⟨name, rfl, hs⟩
                obtain ⟨cs, hc⟩ := exists_candidates.mpr
                  ((exists_registers.mp ⟨R, h⟩).fields _ hs.written)
                have hcs := (getElem?_registers h hρ).mpr ⟨hs.written, hc⟩
                obtain ⟨o, ho⟩ := exists_mapM_eq_ok.mp ⟨us, hu⟩ (name, cs)
                  (mem_toList_iff_getElem?_eq_some.mpr hcs)
                cases (materializeField_eq_ok hc ho).mpr ⟨rfl, hs⟩
                exact ⟨name, cs, ⟨hs.written, hc⟩, ho⟩

end Registers

-- The outcomes of all resources that the document lists.
structure Outcomes (r : SyncReplica) (R : Registers) (localValues : SyncValues) (scope : SyncScope)
    (outcomes : List (SyncResourceId × Outcome)) : Prop where
  removed : ∀ ρ, (ρ, .delete) ∈ outcomes ↔ r.Removed scope ρ
  settled : ∀ k v, (∃ ρ us, (ρ, .update us) ∈ outcomes ∧ (k, v) ∈ us) ↔
    ∃ f : SyncFieldId, f.key = k ∧ r.Live localValues scope f.resource ∧ r.Settled f v

variable {f : SyncFieldId}

variable {localValues scope m}

section

variable (h : r.registers = .ok R)
include h

theorem outcomes_of_mapM {localValues}
    {scope blocked outcomes} (hb : ∀ ρ, ρ ∈ blocked ↔ r.Blocked ρ)
    (ho : R.toList.mapM (fun (ρ, fields) => do
      return (ρ, ← r.materializeResource localValues scope blocked ρ fields)) = .ok outcomes) :
    r.Outcomes R localValues scope outcomes := by
  have hm {ρ o} : (ρ, o) ∈ outcomes ↔ ∃ fields, R[ρ]? = some fields ∧
      r.materializeResource localValues scope blocked ρ fields = .ok o := by
    simp only [mem_of_mapM ho, Prod.exists, mem_toList_iff_getElem?_eq_some,
      bind_eq_ok, pure_eq_ok, Prod.mk.injEq]
    constructor
    case mp =>
      rintro ⟨_, fields, hρ, _, ho, rfl, rfl⟩
      exact ⟨fields, hρ, ho⟩
    case mpr =>
      rintro ⟨fields, hρ, ho⟩
      exact ⟨ρ, fields, hρ, o, ho, rfl, rfl⟩
  -- Every resource with a written field has an outcome.
  have hx {f} (hw : r.Written f) : ∃ fields o, R[f.resource]? = some fields ∧
      r.materializeResource localValues scope blocked f.resource fields = .ok o := by
    obtain ⟨fields, hρ⟩ := (mem_registers h).mpr ⟨f, hw, rfl⟩
    obtain ⟨⟨_, o⟩, ho⟩ := exists_mapM_eq_ok.mp ⟨_, ho⟩ (f.resource, fields)
      (mem_toList_iff_getElem?_eq_some.mpr hρ)
    simp only [bind_eq_ok, pure_eq_ok, Prod.mk.injEq] at ho
    obtain ⟨o, ho, _⟩ := ho
    exact ⟨fields, o, hρ, ho⟩
  constructor
  case removed =>
    intro ρ
    constructor
    case mp =>
      intro hd
      obtain ⟨fields, hρ, ho⟩ := hm.mp hd
      exact materializeResource_spec h hb hρ ho
    case mpr =>
      intro hr
      obtain ⟨fields, o, hρ, ho⟩ := hx hr.gone.written
      have hs := materializeResource_spec h hb hρ ho
      cases o
      case keep => exact absurd hr hs.1
      case delete => exact hm.mpr ⟨fields, hρ, ho⟩
      case update => exact absurd hr hs.1.not_removed
  case settled =>
    intro k v
    constructor
    case mp =>
      rintro ⟨ρ, us, hu, hk⟩
      obtain ⟨fields, hρ, ho⟩ := hm.mp hu
      obtain ⟨hl, hs⟩ := materializeResource_spec h hb hρ ho
      obtain ⟨name, hk, hs⟩ := (hs k v).mp hk
      exact ⟨⟨ρ, name⟩, hk.symm, hl, hs⟩
    case mpr =>
      rintro ⟨f, rfl, hl, hs⟩
      obtain ⟨fields, o, hρ, ho⟩ := hx hs.written
      have hsp := materializeResource_spec h hb hρ ho
      cases o
      case keep => exact absurd hl hsp.2
      case delete => exact absurd hsp hl.not_removed
      case update us =>
        exact ⟨f.resource, us, hm.mpr ⟨fields, hρ, ho⟩, (hsp.2 _ v).mpr ⟨f.field, rfl, hs⟩⟩

theorem mem_blockedNew {cs}
    (hc : r.conflictsFrom R = .ok cs) {ρ} :
    ρ ∈ (cs.filter fun c => supportsField c.field.resource.kind c.field.field).map
      (·.field.resource) ↔ r.Blocked ρ := by
  simp [mem_conflictsFrom h hc, Blocked, and_assoc]

omit h in
theorem mem_deletions {ρ} : ρ ∈ deletions outcomes ↔ (ρ, .delete) ∈ outcomes := by
  rw [deletions, List.mem_filterMap]
  constructor
  case mp =>
    rintro ⟨⟨ρ', o⟩, hm, hx⟩
    cases o <;> simp only [reduceCtorEq, Option.some.injEq] at hx
    exact hx ▸ hm
  case mpr => exact fun hm => ⟨_, hm, rfl⟩

omit h in
theorem retains_eq_true {k} : retains ds k ↔ ∀ f, fromKey k = some f → f.resource ∉ ds := by
  cases hk : fromKey k <;> simp [retains, hk]

omit h in
theorem mem_updates {outcomes : List (SyncResourceId × Outcome)} {u} :
    u ∈ outcomes.flatMap (·.2.updates) ↔ ∃ ρ us, (ρ, .update us) ∈ outcomes ∧ u ∈ us := by
  rw [List.mem_flatMap]
  constructor
  case mp =>
    rintro ⟨⟨ρ, o⟩, hm, hk⟩
    cases o <;> simp only [Outcome.updates, List.not_mem_nil] at hk
    exact ⟨ρ, _, hm, hk⟩
  case mpr =>
    rintro ⟨ρ, us, hm, hk⟩
    exact ⟨_, hm, hk⟩

theorem materialized_of_outcomes
    {localValues scope outcomes} (ho : r.Outcomes R localValues scope outcomes) :
    r.Materialized localValues scope <|
      (Patch.apply localValues (outcomes.flatMap (·.2.updates))).filter fun key _ =>
        retains (deletions outcomes) key := by
  have hr := exists_registers.mp ⟨R, h⟩
  have hu {k v} := mem_updates.trans (ho.settled k v)
  have hd {ρ} := mem_deletions.trans (ho.removed ρ)
  have hp {f : SyncFieldId} (hn : ¬r.Removed scope f.resource) :
      retains (deletions outcomes) f.key := by
    rw [retains_eq_true]
    intro g hg hm
    cases SyncFieldId.key_injective (fromKey_eq_some.mp hg).2
    exact hn (hd.mp hm)
  constructor
  case foreign =>
    intro k hk
    rw [getElem?_filter_key, if_pos (retains_eq_true.mpr (by simp [hk])),
      Patch.getElem?_apply_of_not_mem]
    intro v hv
    have ⟨f, hf, _, hs⟩ := hu.mp hv
    simp [fromKey_eq_some.mpr ⟨hr.valid hs.written, hf⟩] at hk
  case removed =>
    intro f hv hrm
    rw [getElem?_filter_key, if_neg]
    rw [retains_eq_true]
    exact fun hc => hc f (fromKey_key hv) (hd.mpr hrm)
  case settled =>
    intro f v hl hs
    rw [getElem?_filter_key, if_pos (hp hl.not_removed),
      Patch.getElem?_apply_of_mem (hu.mpr ⟨f, rfl, hl, hs⟩)]
    intro w hw
    have ⟨g, hg, _, hw⟩ := hu.mp hw
    cases SyncFieldId.key_injective hg
    exact hw.unique hs
  case kept =>
    intro f hn hs
    rw [getElem?_filter_key, if_pos (hp hn), Patch.getElem?_apply_of_not_mem]
    intro v hv
    have ⟨g, hg, hl, hw⟩ := hu.mp hv
    cases SyncFieldId.key_injective hg
    exact hs ⟨hl, v, hw⟩

-- A resource that a fixed replica looks at has no supported field outside the core.
omit h in
theorem not_skips_of_supportsField
    (h : ¬r.skips (.presence f.resource)) (hf : supportsField f.resource.kind f.field) :
    ¬r.skips f := by
  simp only [skips, Bool.and_eq_true, Bool.not_eq_true', Bool.eq_false_iff, not_and, not_not] at h ⊢
  exact fun hx => fixedCloudSyncField_of_presence (h hx) hf

omit h in
theorem exists_materializeField {ρ name cs} (hs : ¬r.skips (.presence ρ))
    (hc : r.candidates ⟨ρ, name⟩ = .ok cs) : ∃ o, r.materializeField ρ (name, cs) = .ok o := by
  simp only [materializeField]
  split
  case isTrue => exact ⟨none, rfl⟩
  case isFalse hn =>
    cases cs
    case nil => exact ⟨none, rfl⟩
    case cons c cs =>
      simp only [Bool.or_eq_true, Bool.not_eq_true', Bool.eq_false_iff, not_or, not_not] at hn
      have hs := not_skips_of_supportsField (f := ⟨ρ, name⟩) hs hn.1
      have hr := candidates_resolve hc (.head _ ..)
      have ⟨v, hv⟩ := exists_reads hr hs
      by_cases hd : c.value = deleted
      case pos => exact ⟨_, if_pos hd⟩
      have ⟨w, hw, _⟩ := (reads_of_ne hd).mp hv
      simp only [if_neg hd, candidateValue_eq_ok.mpr hw]
      exact ⟨_, rfl⟩

theorem exists_materializeResource
    (hr : r.Consistent) {ρ fields} (hρ : R[ρ]? = some fields) (localValues scope blocked) :
    ∃ o, r.materializeResource localValues scope blocked ρ fields = .ok o := by
  unfold materializeResource
  split
  case isTrue => exact ⟨_, rfl⟩
  case isFalse hi =>
    have hs : ¬r.skips (.presence ρ) := by simp_all
    obtain ⟨f, hw, rfl⟩ := (mem_registers h).mp ⟨fields, hρ⟩
    have hd := hr.decided f hw hs
    have ⟨cs, hc⟩ := exists_candidates.mpr (hr.readable.fields _ hd.written)
    simp only [(getElem?_registers h hρ).mpr ⟨hd.written, hc⟩]
    split
    case isTrue => exact ⟨_, rfl⟩
    case isFalse hn =>
      have ⟨b, hb⟩ := exists_boolean hc ((one_lt_distinct_iff hc).not.mp hn) hd
      have ⟨us, hu⟩ : ∃ us, fields.toList.mapM (r.materializeField f.resource) = .ok us := by
        simp only [exists_mapM_eq_ok, Prod.forall,
          mem_toList_iff_getElem?_eq_some, getElem?_registers h hρ]
        exact fun name cs hc => exists_materializeField hs hc.2
      simp only [hb, hu, bind, Except.bind]
      split
      · exact ⟨_, rfl⟩
      · split <;> exact ⟨_, rfl⟩

theorem materializeFrom_materialized (hm : r.materializeFrom localValues scope R = .ok m) :
    r.Materialized localValues scope m := by
  simp only [materializeFrom, bind_eq_ok, pure_eq_ok] at hm
  obtain ⟨cs, hc, outcomes, ho, hm⟩ := hm
  have ho := outcomes_of_mapM h (fun ρ => mem_blockedNew h hc) ho
  exact hm ▸ materialized_of_outcomes h ho

theorem exists_materializeFrom
    (localValues scope) :
    (∃ m, r.materializeFrom localValues scope R = .ok m) ↔ r.Consistent := by
  constructor
  case mp =>
    rintro ⟨m, hm⟩
    simp only [materializeFrom, bind_eq_ok] at hm
    obtain ⟨cs, hc, _⟩ := hm
    exact (exists_conflictsFrom h).mp ⟨cs, hc⟩
  case mpr =>
    intro hr
    obtain ⟨cs, hc⟩ := (exists_conflictsFrom h).mpr hr
    have ho (blocked) : ∃ os, R.toList.mapM (fun x => do
        return (x.1, ← r.materializeResource localValues scope blocked x.1 x.2)) = .ok os := by
      simp only [exists_mapM_eq_ok, Prod.forall,
        mem_toList_iff_getElem?_eq_some]
      intro ρ fields hρ
      obtain ⟨o, ho⟩ := exists_materializeResource h hr hρ localValues scope blocked
      exact ⟨_, by simp only [ho]; rfl⟩
    obtain ⟨os, ho⟩ := ho _
    exact ⟨_, bind_eq_ok.mpr ⟨cs, hc, bind_eq_ok.mpr ⟨os, ho, rfl⟩⟩⟩

end

-- Materializing fails on the same replicas for all local values and scopes, and its result is
-- determined by what it has to satisfy.
theorem materialize_eq_ok :
    r.materialize localValues scope = .ok m ↔
      r.Consistent ∧ r.Materialized localValues scope m := by
  simp only [materialize, bind_eq_ok]
  constructor
  case mp =>
    rintro ⟨R, h, hm⟩
    exact ⟨(exists_materializeFrom h localValues scope).mp ⟨m, hm⟩, materializeFrom_materialized h hm⟩
  case mpr =>
    rintro ⟨hr, hm⟩
    have ⟨R, h⟩ := exists_registers.mpr hr.readable
    have ⟨m', hm'⟩ := (exists_materializeFrom h localValues scope).mpr hr
    exact ⟨R, h, (materializeFrom_materialized h hm').unique hm ▸ hm'⟩

theorem exists_materialize (h : r.Consistent) (localValues scope) :
    ∃ m, r.materialize localValues scope = .ok m := by
  have ⟨R, hR⟩ := exists_registers.mpr h.readable
  have ⟨m, hm⟩ := (exists_materializeFrom hR localValues scope).mpr h
  exact ⟨m, bind_eq_ok.mpr ⟨R, hR, hm⟩⟩

-- What materializing may do to the local values.
structure Conservative (r : SyncReplica) (localValues : SyncValues) (scope : SyncScope)
    (m : SyncValues) : Prop where
  -- Nothing is decided for a field that is in conflict, or for a resource whose presence is.
  conflicted : ∃ cs, r.conflicts = .ok cs ∧ ∀ c ∈ cs, m[c.field.key]? = localValues[c.field.key]? ∧
    (c.field.field = SyncFieldId.present →
      ∀ f : SyncFieldId, f.resource = c.field.resource → m[f.key]? = localValues[f.key]?)
  -- A resource that is not there locally is added with all of its supported registers, or no part
  -- of it is.
  added : ∀ ρ, (SyncFieldId.presence ρ).key ∉ localValues →
    (∀ f : SyncFieldId, f.resource = ρ → f.key ∈ m → m[f.key]? = localValues[f.key]?) ∨
      ∀ f : SyncFieldId, f.resource = ρ → r.Written f → supportsField ρ.kind f.field →
        ∃ v, r.Settled f v ∧ m[f.key]? = v
  blocked : ∀ ρ, (SyncFieldId.presence ρ).key ∉ localValues → r.Blocked ρ →
    ∀ f : SyncFieldId, f.resource = ρ → f.key ∈ m → m[f.key]? = localValues[f.key]?
  removed : ∀ ρ, r.Removed scope ρ → ∀ f : SyncFieldId, f.Valid → f.resource = ρ → f.key ∉ m
  excluded : ∀ f : SyncFieldId, ¬scope.includes f.resource.kind → m[f.key]? = localValues[f.key]?
  unsupported : ∀ f : SyncFieldId, ¬supportsField f.resource.kind f.field →
    ¬r.Removed scope f.resource → m[f.key]? = localValues[f.key]?
  foreign : ∀ k, SyncFieldId.fromKey k = none → m[k]? = localValues[k]?

section Conservative

variable {m : SyncValues}
  (h : r.Materialized localValues scope m)
include h

theorem Materialized.of_not_live (hn : ¬r.Live localValues scope f.resource)
    (hm : f.key ∈ m) : m[f.key]? = localValues[f.key]? := by
  by_cases hg : r.Removed scope f.resource
  case neg => exact h.kept f hg fun hl => hn hl.1
  case pos =>
    by_cases hv : f.Valid
    case pos => simp [mem_iff_isSome_getElem?, h.removed f hv hg] at hm
    case neg => exact h.foreign _ (fromKey_key_eq_none hv)

theorem Materialized.reported {c} (hc : r.Reported c) :
    m[c.field.key]? = localValues[c.field.key]? := by
  refine h.kept _ (fun hg => ?_) fun hs => ?_
  · rcases hc.shown with hp | hn
    · exact hg.gone.not_disputed (eq_presence hp ▸ hc.disputed)
    · exact hn (.inr hg.gone)
  · have ⟨_, v, hs⟩ := hs
    exact hs.not_disputed hc.disputed

theorem Materialized.disputed (hd : r.Disputed (.presence f.resource)) :
    m[f.key]? = localValues[f.key]? :=
  h.kept f (fun hg => hg.gone.not_disputed hd) fun hl => hl.1.undisputed hd

omit h in
theorem Live.settled (hr : r.Readable)
    (hl : r.Live localValues scope f.resource) (hn : (presence f.resource).key ∉ localValues)
    (hw : r.Written f) (hs : supportsField f.resource.kind f.field) : ∃ v, r.Settled f v := by
  have hsk := not_skips_of_supportsField hl.inScope.seen hs
  have ⟨cs, hc⟩ := exists_candidates.mpr (hr.fields f hw)
  have hd : ¬r.Disputed f := by
    refine fun hd => hl.admitted.elim hn fun hb => hb ?_
    exact ⟨⟨f, cs⟩, ⟨hc, hd, hsk, .inr (not_or.mpr ⟨hl.undisputed, hl.present⟩)⟩, hs, rfl⟩
  have ⟨d, hh⟩ := exists_holds hw (hr.fields f hw)
  have ho := only_of_not_disputed hd hh
  obtain ⟨c, hm, rfl⟩ := (holds_iff hc).mp hh
  have ⟨v, hv⟩ := exists_reads (candidates_resolve hc hm) hsk
  exact ⟨v, hs, c.value, ho, hv⟩

theorem Materialized.conservative (hr : r.Consistent) : r.Conservative localValues scope m where
  conflicted := by
    have ⟨cs, hc⟩ := exists_conflicts.mpr hr
    refine ⟨cs, hc, fun c hm => ⟨h.reported ((mem_conflicts hc).mp hm), fun hp f hf => ?_⟩⟩
    have hd := ((mem_conflicts hc).mp hm).disputed
    exact h.disputed (hf ▸ eq_presence hp ▸ hd)
  added ρ hn := by
    by_cases hl : r.Live localValues scope ρ
    case neg =>
      left
      rintro f rfl hm
      exact h.of_not_live hl hm
    case pos =>
      right
      rintro f rfl hw hs
      have ⟨v, hv⟩ := hl.settled hr.readable hn hw hs
      exact ⟨v, hv, h.settled f v hl hv⟩
  blocked ρ hn hb := by
    rintro f rfl hm
    exact h.of_not_live (fun hl => hl.admitted.elim hn (· hb)) hm
  removed ρ hg := by
    rintro f hv rfl
    simp [mem_iff_isSome_getElem?, h.removed f hv hg]
  excluded f hn := h.kept f (fun hg => hn hg.inScope.included) fun hl => hn hl.1.inScope.included
  unsupported f hn hg := by
    refine h.kept f hg fun hl => ?_
    have ⟨_, v, hs⟩ := hl
    exact hn hs.supported
  foreign := h.foreign

-- The result is a fixed point: nothing that was kept back can be added by its own result.
theorem Materialized.again : r.Materialized m scope m where
  foreign _ _ := rfl
  removed := h.removed
  settled f v hl hs := by
    refine h.settled f v { hl with admitted := ?_ } hs
    rcases hl.admitted with hm | hb
    case inr => exact .inr hb
    case inl =>
      by_contra hn
      have hk := h.of_not_live (f := .presence f.resource) (fun hl' => hn hl'.admitted) hm
      rw [mem_iff_isSome_getElem?, hk, ← mem_iff_isSome_getElem?] at hm
      exact hn (.inl hm)
  kept _ _ _ := rfl

end Conservative

variable [Platform]

-- Materializing is conservative, all or nothing for each resource that it adds, and idempotent.
theorem materialize_conservative (r : SyncReplica) (localValues : SyncValues) (scope : SyncScope) :
    (r.validate = .ok () → ∃ m, r.materialize localValues scope = .ok m) ∧
    ∀ m, r.materialize localValues scope = .ok m →
      r.Conservative localValues scope m ∧ r.materialize m scope = .ok m := by
  constructor
  case left => exact fun h => exists_materialize (validate_eq_ok.mp h).consistent ..
  case right =>
    intro m h
    have ⟨hr, hm⟩ := materialize_eq_ok.mp h
    exact ⟨hm.conservative hr, materialize_eq_ok.mpr ⟨hr, hm.again⟩⟩

omit [Platform] in
-- A field that this version does not support goes with its resource.
theorem materialize_removes_unsupported : ∃ (_ : Platform) (r : SyncReplica)
    (localValues : SyncValues) (scope : SyncScope) (m : SyncValues) (f : SyncFieldId),
    r.validate = .ok () ∧ r.materialize localValues scope = .ok m ∧
      ¬supportsField f.resource.kind f.field ∧ f.key ∈ localValues ∧ f.key ∉ m := by
  let f : SyncFieldId := ⟨⟨"connection", "c1"⟩, "color"⟩
  have hv : f.Valid := by constructor <;> simp [f]
  let baseline : SyncValues := (∅ : SyncValues).insert (SyncFieldId.presence f.resource).key (.bool true)
  have hb (k : String) : k ∈ baseline ↔ k = (SyncFieldId.presence f.resource).key := by
    simp only [baseline, ExtTreeMap.mem_insert, ExtTreeMap.not_mem_empty, or_false,
      LawfulEqCmp.compare_eq_iff_eq]
    exact eq_comm
  have hc : f.resource.kind ∈ (∅ : BTreeSet String).insert "connection" := by simp [f]
  generalize Platform.sample = platform
  have ⟨hr, _, hg⟩ := capture_new_gone 1 {} (fun _ => 0) hv.presence (by decide) hb hc
  have ⟨m, hm⟩ := exists_materialize hr.consistent
    ((∅ : SyncValues).insert f.key (.bool true)) {}
  have hs : fixedCloudSyncField (.presence f.resource) := by decide
  have hm' := (materialize_eq_ok.mp hm).2.conservative hr.consistent
  refine ⟨platform, _, _, {}, m, f, validate_eq_ok.mpr hr, hm, by decide, by simp, ?_⟩
  exact hm'.removed _ ⟨⟨by decide, by simp [skips, hs]⟩, hg⟩ f hv rfl

end NyaTerm.SyncReplica

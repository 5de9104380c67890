import NyaTerm.Sync.Theorems.Writes

open List

open Std Causal

namespace NyaTerm.SyncReplica

open SyncFieldId

variable {keys : List String}

theorem mem_parseKeys {f} (h : f ∈ (parseKeys keys).1) :
    f.Valid ∧ f.key ∈ keys := by
  induction keys
  case nil => simp [parseKeys] at h
  case cons k ks hi =>
    cases hk : fromKey k <;> simp only [parseKeys, hk] at h
    case none => simp at h
    case some g =>
      have ⟨hv, hg⟩ := fromKey_eq_some.mp hk
      rcases mem_cons.mp h with rfl | h
      · exact ⟨hv, by simp [hg]⟩
      · exact ⟨(hi h).1, by simp [(hi h).2]⟩

theorem parseKeys_complete (h : (parseKeys keys).2 = false) {f}
    (hv : f.Valid) (hf : f.key ∈ keys) : f ∈ (parseKeys keys).1 := by
  induction keys
  case nil => simp at hf
  case cons k ks hi =>
    cases hk : fromKey k <;> simp only [parseKeys, hk] at h ⊢
    case none => simp at h
    case some g =>
      rcases mem_cons.mp hf with rfl | hf
      · simp [fromKey_key hv] at hk
        simp [hk]
      · simp [hi h hf]

theorem parseKeys_malformed (h : (parseKeys keys).2 = true) :
    ∃ k ∈ keys, fromKey k = none := by
  induction keys
  case nil => simp [parseKeys] at h
  case cons k ks hi =>
    cases hk : fromKey k <;> simp only [parseKeys, hk] at h
    case none => exact ⟨k, by simp, hk⟩
    case some g =>
      have ⟨k', hk', hn⟩ := hi h
      exact ⟨k', by simp [hk'], hn⟩

section

variable (r : SyncReplica) (baseline : SyncValues) (current : SyncProjection) (scope : SyncScope)

-- The registers that the device may write.
structure Admits (f : SyncFieldId) : Prop where
  included : scope.includes f.resource.kind
  seen : ¬r.skips f
  supported : supportsField f.resource.kind f.field

def Observed (f : SyncFieldId) : Prop :=
  f.key ∈ baseline ∨ f.key ∈ current.values

-- The device has seen that a resource it knew is gone.
structure Deletes (ρ : SyncResourceId) : Prop where
  valid : (SyncFieldId.presence ρ).Valid
  admitted : r.Admits scope (.presence ρ)
  complete : ρ.kind ∈ current.complete
  known : (SyncFieldId.presence ρ).key ∈ baseline
  absent : (SyncFieldId.presence ρ).key ∉ current.values

-- The device has seen that a field was changed.
structure Edits (f : SyncFieldId) : Prop where
  valid : f.Valid
  observed : Observed baseline current f
  admitted : r.Admits scope f
  read : f.resource.kind ∈ current.complete ∨ f.key ∈ current.values
  kept : ¬r.Deletes baseline current scope f.resource
  changed : baseline[f.key]? ≠ current.values[f.key]? ∨ f ∈ current.edited

-- The reasons for a write.
inductive Captures : Write → Prop
  | deletion {ρ} (h : r.Deletes baseline current scope ρ) :
    Captures ⟨.presence ρ, some (.bool false)⟩
  | edit {f} (h : r.Edits baseline current scope f) : Captures ⟨f, current.values[f.key]?⟩
  | presence {f} (h : r.Edits baseline current scope f) :
    Captures ⟨.presence f.resource, some (.bool true)⟩

-- The writes of a capture that succeeds. The presence of a resource is written after its fields.
structure Captured (ws : List Write) : Prop where
  reasons : ∀ w ∈ ws, r.Captures baseline current scope w
  deletes : ∀ ρ, r.Deletes baseline current scope ρ →
    lastOn ws (.presence ρ) = some ⟨.presence ρ, some (.bool false)⟩
  edits : ∀ f, r.Edits baseline current scope f → f.field ≠ SyncFieldId.present →
    lastOn ws f = some ⟨f, current.values[f.key]?⟩
  presents : ∀ f, r.Edits baseline current scope f →
    lastOn ws (.presence f.resource) = some ⟨.presence f.resource, some (.bool true)⟩

end

section

variable {r : SyncReplica} {baseline : SyncValues} {current : SyncProjection} {scope : SyncScope}

theorem removes_iff (hv : f.Valid) : r.removes baseline current scope f ↔
    f.field = present ∧ r.Deletes baseline current scope f.resource := by
  simp only [removes, Bool.and_eq_true, beq_iff_eq, Bool.not_eq_true', and_assoc,
    ExtTreeMap.contains_iff_mem, ExtTreeSet.contains_iff_mem]
  refine and_congr_right fun hf => ?_
  have hp := eq_presence hf
  constructor
  case mp =>
    rw [hp]
    rintro ⟨hi, hs, hc, hb, hn⟩
    exact ⟨hp ▸ hv, ⟨hi, by simpa using hs, supportsField_present hi⟩, hc, hb, by
      simpa [← ExtTreeMap.contains_iff_mem] using hn⟩
  case mpr =>
    intro h
    rw [hp]
    exact ⟨h.admitted.included, by simpa using h.admitted.seen, h.complete, h.known, by
      simpa [← ExtTreeMap.contains_iff_mem] using h.absent⟩

section Complete

-- All keys were read.
variable {fields : List SyncFieldId} (hf : ∀ f, f ∈ fields ↔ f.Valid ∧ Observed baseline current f)
include hf

theorem mem_removedFields {f} : f ∈ r.removedFields baseline current scope fields ↔
    f.field = present ∧ r.Deletes baseline current scope f.resource := by
  rw [removedFields, mem_filter, hf]
  constructor
  case mp =>
    rintro ⟨⟨hv, _⟩, hr⟩
    exact (removes_iff hv).mp hr
  case mpr =>
    rintro ⟨hp, hd⟩
    have he := eq_presence hp
    have hv : f.Valid := he ▸ hd.valid
    exact ⟨⟨hv, .inl (he ▸ hd.known)⟩, (removes_iff hv).mpr ⟨hp, hd⟩⟩

theorem mem_changedFields {f} : f ∈ r.changedFields baseline current scope fields ↔
    r.Edits baseline current scope f := by
  have hm {ρ} : ρ ∈ (r.removedFields baseline current scope fields).map (·.resource) ↔
      r.Deletes baseline current scope ρ := by
    simp only [mem_map, mem_removedFields hf]
    constructor
    case mp =>
      rintro ⟨f, ⟨_, hd⟩, he⟩
      exact he ▸ hd
    case mpr => exact fun hd => ⟨.presence ρ, ⟨rfl, hd⟩, rfl⟩
  rw [changedFields, mem_filter, hf]
  simp only [changes, Bool.and_eq_true, Bool.or_eq_true, Bool.not_eq_true', bne_iff_ne, and_assoc,
    ExtTreeMap.contains_iff_mem, ExtTreeSet.contains_iff_mem]
  constructor
  case mp =>
    rintro ⟨hv, ho, hi, hs, hsup, hr, hd, hc⟩
    refine ⟨hv, ho, ⟨hi, by simpa using hs, hsup⟩, hr, ?_, hc⟩
    rw [← hm, ← contains_iff_mem]
    simpa using hd
  case mpr =>
    intro h
    refine ⟨h.valid, h.observed, h.admitted.included, by simpa using h.admitted.seen,
      h.admitted.supported, h.read, ?_, h.changed⟩
    have hk := h.kept
    rw [← hm, ← contains_iff_mem] at hk
    simpa using hk

theorem mem_changedResources {ρ} : ρ ∈ r.changedResources baseline current scope fields ↔
    ∃ f, f.resource = ρ ∧ r.Edits baseline current scope f := by
  simp only [changedResources, ExtTreeSet.mem_toList, ExtTreeSet.mem_ofList, contains_iff_mem,
    mem_map, mem_changedFields hf]
  exact exists_congr fun f => and_comm

theorem mem_deletionWrites {w} : w ∈ r.deletionWrites baseline current scope fields ↔
    ∃ ρ, r.Deletes baseline current scope ρ ∧ w = ⟨.presence ρ, some (.bool false)⟩ := by
  simp only [deletionWrites, mem_map, mem_removedFields hf]
  constructor
  case mp =>
    rintro ⟨f, ⟨hp, hd⟩, rfl⟩
    exact ⟨f.resource, hd, by rw [← eq_presence hp]⟩
  case mpr =>
    rintro ⟨ρ, hd, rfl⟩
    exact ⟨.presence ρ, ⟨rfl, hd⟩, rfl⟩

theorem mem_editWrites {w} : w ∈ r.editWrites baseline current scope fields ↔
    ∃ f, r.Edits baseline current scope f ∧ w = ⟨f, current.values[f.key]?⟩ := by
  simp [editWrites, mem_changedFields hf, eq_comm (a := w)]

theorem mem_presenceWrites {w} : w ∈ r.presenceWrites baseline current scope fields ↔
    ∃ f, r.Edits baseline current scope f ∧ w = ⟨.presence f.resource, some (.bool true)⟩ := by
  simp only [presenceWrites, mem_map, mem_changedResources hf]
  constructor
  case mp =>
    rintro ⟨ρ, ⟨f, rfl, he⟩, rfl⟩
    exact ⟨f, he, rfl⟩
  case mpr =>
    rintro ⟨f, he, rfl⟩
    exact ⟨f.resource, ⟨f, rfl, he⟩, rfl⟩

theorem captured_of_complete : r.Captured baseline current scope
    (r.deletionWrites baseline current scope fields ++ r.editWrites baseline current scope fields ++
      r.presenceWrites baseline current scope fields) := by
  constructor
  case reasons =>
    intro w hw
    simp only [mem_append, mem_deletionWrites hf, mem_editWrites hf,
      mem_presenceWrites hf] at hw
    rcases hw with (⟨ρ, hd, rfl⟩ | ⟨f, he, rfl⟩) | ⟨f, he, rfl⟩
    · exact .deletion hd
    · exact .edit he
    · exact .presence he
  case deletes =>
    -- Nothing of a resource that is removed is written after its deletion.
    intro ρ hd
    have hp : lastOn (r.presenceWrites baseline current scope fields) (.presence ρ) = none := by
      rw [lastOn_eq_none]
      intro w hw hwf
      have ⟨f, he, h⟩ := (mem_presenceWrites hf).mp hw
      subst h
      exact he.kept ((congrArg resource hwf : f.resource = ρ) ▸ hd)
    have he : lastOn (r.editWrites baseline current scope fields) (.presence ρ) = none := by
      rw [lastOn_eq_none]
      intro w hw hwf
      have ⟨f, he, h⟩ := (mem_editWrites hf).mp hw
      subst h
      exact he.kept ((congrArg resource hwf : f.resource = ρ) ▸ hd)
    rw [lastOn_append, lastOn_append, hp, he, Option.none_or, Option.none_or]
    refine lastOn_eq_some ((mem_deletionWrites hf).mpr ⟨ρ, hd, rfl⟩) rfl fun w hw hwf => ?_
    have ⟨ρ', _, h⟩ := (mem_deletionWrites hf).mp hw
    subst h
    rw [show presence ρ' = .presence ρ from hwf]
  case edits =>
    intro f he hn
    have hp : lastOn (r.presenceWrites baseline current scope fields) f = none := by
      rw [lastOn_eq_none]
      intro w hw hwf
      have ⟨g, _, h⟩ := (mem_presenceWrites hf).mp hw
      subst h
      exact hn (congrArg field hwf).symm
    rw [lastOn_append, lastOn_append, hp, Option.none_or]
    rw [lastOn_eq_some ((mem_editWrites hf).mpr ⟨f, he, rfl⟩) rfl, Option.some_or]
    intro w hw hwf
    have ⟨g, _, h⟩ := (mem_editWrites hf).mp hw
    subst h
    rw [show g = f from hwf]
  case presents =>
    intro f he
    rw [lastOn_append, lastOn_eq_some ((mem_presenceWrites hf).mpr ⟨f, he, rfl⟩) rfl,
      Option.some_or]
    intro w hw hwf
    have ⟨g, _, h⟩ := (mem_presenceWrites hf).mp hw
    subst h
    rw [show presence g.resource = .presence f.resource from hwf]

end Complete

theorem captured_nil (he : current.edited.isEmpty) (hb : baseline = current.values) :
    r.Captured baseline current scope [] := by
  have hd : ∀ ρ, ¬r.Deletes baseline current scope ρ := fun ρ h => h.absent (hb ▸ h.known)
  have hn : ∀ f, ¬r.Edits baseline current scope f := by
    intro f h
    rcases h.changed with hc | hc
    · simp [hb] at hc
    · simp_all
  exact ⟨by simp, fun ρ h => absurd h (hd ρ), fun f h => absurd h (hn f),
    fun f h => absurd h (hn f)⟩

theorem Captured.boolean {ws} (h : r.Captured baseline current scope ws) {ρ w}
    (hw : lastOn ws (.presence ρ) = some w) : ∃ b, w.value = some (.bool b) := by
  have ⟨hm, hf⟩ := lastOn_mem hw
  cases h.reasons w hm
  case deletion => exact ⟨false, rfl⟩
  case presence => exact ⟨true, rfl⟩
  case edit f he =>
    subst hf
    have hv := Option.some.inj ((h.presents _ he).symm.trans hw)
    exact ⟨true, (congrArg Write.value hv).symm⟩

theorem Captured.presence_written {ws} (h : r.Captured baseline current scope ws) {w}
    (hw : w ∈ ws) : ∃ w', lastOn ws (.presence w.field.resource) = some w' := by
  cases h.reasons w hw
  case deletion ρ hd => exact ⟨_, h.deletes ρ hd⟩
  case edit f he => exact ⟨_, h.presents f he⟩
  case presence f he => exact ⟨_, h.presents f he⟩

theorem Captured.valid {ws} (h : r.Captured baseline current scope ws) {w} (hw : w ∈ ws) :
    w.field.Valid := by
  cases h.reasons w hw
  case deletion ρ hd => exact hd.valid
  case edit f he => exact he.valid
  case presence f he => exact he.valid.presence

theorem mem_keys_union :
    k ∈ (ExtTreeSet.ofList (baseline.keys ++ current.values.keys) : BTreeSet String).toList ↔
      k ∈ baseline ∨ k ∈ current.values := by
  simp

variable [Platform]

theorem capture_ok {x r'} (h : r.capture baseline current scope identities = (.ok x, r')) :
    ∃ ws, r' = r.performAll identities ws ∧ r.Captured baseline current scope ws := by
  unfold capture at h
  split at h
  case isTrue hn =>
    simp only [Bool.and_eq_true, decide_eq_true_eq] at hn
    cases h
    exact ⟨[], rfl, captured_nil hn.1 hn.2⟩
  case isFalse =>
    simp only at h
    split at h
    case isTrue => simp at h
    case isFalse hm =>
      rw [Bool.not_eq_true] at hm
      simp only [Prod.mk.injEq] at h
      refine ⟨_, h.2.symm, captured_of_complete fun f => ?_⟩
      constructor
      case mp =>
        intro hf
        have ⟨hv, hk⟩ := mem_parseKeys hf
        exact ⟨hv, mem_keys_union.mp hk⟩
      case mpr =>
        rintro ⟨hv, hk⟩
        exact parseKeys_complete hm hv (mem_keys_union.mpr hk)

theorem capture_error {e r'} (h : r.capture baseline current scope identities = (.error e, r')) :
    ∃ ws, r' = r.performAll identities ws ∧
      (∀ w ∈ ws, ∃ ρ, r.Deletes baseline current scope ρ ∧ w = ⟨.presence ρ, some (.bool false)⟩) ∧
      ∃ k, (k ∈ baseline ∨ k ∈ current.values) ∧ fromKey k = none := by
  unfold capture at h
  split at h
  case isTrue => simp at h
  simp only at h
  split at h
  case isFalse => simp at h
  case isTrue hm =>
    simp only [Prod.mk.injEq] at h
    obtain ⟨k, hk, hn⟩ := parseKeys_malformed hm
    refine ⟨_, h.2.symm, fun w hw => ?_, k, mem_keys_union.mp hk, hn⟩
    simp only [deletionWrites, removedFields, mem_map, mem_filter] at hw
    obtain ⟨f, ⟨hf, hr⟩, he⟩ := hw
    obtain ⟨hp, hd⟩ := (removes_iff (mem_parseKeys hf).1).mp hr
    exact ⟨f.resource, hd, by rw [← he, ← eq_presence hp]⟩

variable (r scope identities) in
theorem exists_capture_ok (h : ∀ k, k ∈ baseline ∨ k ∈ current.values →
    ∃ f, fromKey k = some f) :
    ∃ x r', r.capture baseline current scope identities = (.ok x, r') := by
  cases hc : r.capture baseline current scope identities
  case mk res r' =>
    cases res
    case ok x => exact ⟨x, r', rfl⟩
    case error e =>
      have ⟨_, _, _, k, hk, hn⟩ := capture_error hc
      have ⟨f, hf⟩ := h k hk
      simp [hf] at hn

theorem capture_writes (r : SyncReplica) (baseline current scope identities) :
    ∃ ws, (r.capture baseline current scope identities).2 = r.performAll identities ws ∧
      (∀ w ∈ ws, r.Captures baseline current scope w) ∧ r.Sound ws := by
  cases hc : r.capture baseline current scope identities
  case mk res r' =>
    cases res
    case ok x =>
      have ⟨ws, he, h⟩ := capture_ok hc
      refine ⟨ws, he, h.reasons, fun w hw => h.valid hw, fun ρ w hw => h.boolean hw, ?_⟩
      exact fun w hw _ => .inl (h.presence_written hw)
    case error e =>
      have ⟨ws, he, h, _⟩ := capture_error hc
      refine ⟨ws, he, fun w hw => ?_, fun w hw => ?_, fun ρ w hw => ?_, fun w hw _ => ?_⟩
      · have ⟨ρ, hd, hw⟩ := h w hw
        exact hw ▸ .deletion hd
      · have ⟨ρ, hd, hw⟩ := h w hw
        exact hw ▸ hd.valid
      · have ⟨ρ, hd, hw⟩ := h w (lastOn_mem hw).1
        exact ⟨false, by rw [hw]⟩
      · have ⟨ρ, hd, he⟩ := h w hw
        refine .inl ⟨w, lastOn_eq_some hw (by rw [he]; rfl) fun w' hw' hf => ?_⟩
        have ⟨ρ', _, he'⟩ := h w' hw'
        subst he he'
        rw [show presence ρ' = .presence ρ from hf]

section Values

variable {S : Set SyncValue} (hb : ∀ b, SyncValue.bool b ∈ S)
  (hc : ∀ (k : String) v, current.values[k]? = some v → v ∈ S)
include hb hc

omit [Platform] in
theorem Captures.writesIn {ws} (h : ∀ w ∈ ws, r.Captures baseline current scope w) :
    WritesIn ws S := by
  intro w hw v hv
  cases h w hw
  case deletion => exact Option.some.inj hv ▸ hb false
  case presence => exact Option.some.inj hv ▸ hb true
  case edit f he => exact hc _ v hv

theorem Valid.capture (hr : r.Valid) (hS : Collisionless S) (hs : r.Stores S) :
    (r.capture baseline current scope identities).2.Valid := by
  have ⟨ws, he, hw, h⟩ := capture_writes r baseline current scope identities
  exact he ▸ hr.performAll hS hs (Captures.writesIn hb hc hw) h

theorem Captured.gone (hr : r.Valid) (hS : Collisionless S) (hs : r.Stores S) {ws}
    (h : r.Captured baseline current scope ws) {ρ} (hρ : r.Deletes baseline current scope ρ) :
    (r.performAll identities ws).Gone ρ := by
  have hl := h.deletes ρ hρ
  refine ⟨_, .bool false, only_performAll _ _ hl, ?_, SyncValue.decode_bool false⟩
  exact getElem?_performAll_of_mem hS hs (Captures.writesIn hb hc h.reasons) hr.digests
    (lastOn_mem hl).1 rfl

end Values

end

-- An operation on the register of a field that the first replica does not hold.
def Adds (r r' : SyncReplica) (f : SyncFieldId) : Prop :=
  ∃ i p, r'.document.op? i = some p ∧ r.document.op? i = none ∧ p.key = f.key

theorem getAll_of_not_adds {r : SyncReplica} {f} (hl : r.document ≤ r'.document) (h : ¬r.Adds r' f) :
    r'.document.getAll f.key = r.document.getAll f.key := by
  refine Document.getAll_eq_of_le hl fun i p hp hk => ?_
  cases hi : r.document.op? i
  case none => exact absurd ⟨i, p, hp, hi, hk⟩ h
  case some q => exact (hl _ _ hi).symm.trans hp

variable [Platform]

variable {r : SyncReplica}

theorem exists_write_of_adds {identities ws f}
    (h : r.Adds (r.performAll identities ws) f) : ∃ w ∈ ws, w.field = f := by
  have ⟨i, p, hp, hn, hk⟩ := h
  rcases op?_performAll hp with hp | ⟨_, w, hw, hwk, _⟩
  · simp [hn] at hp
  · exact ⟨w, hw, SyncFieldId.key_injective (hwk.symm.trans hk)⟩

-- A presence register that is written because of an edit of the resource, and set to true.
structure Renews (r r' : SyncReplica) (baseline : SyncValues) (current : SyncProjection)
    (scope : SyncScope) (f : SyncFieldId) : Prop where
  presence : f.field = SyncFieldId.present
  edit : ∃ g, g.resource = f.resource ∧ r.Edits baseline current scope g
  value : r'.Only f (digest (SyncValue.bool true).bytes)

theorem Captured.renews {baseline current scope identities ws}
    (h : r.Captured baseline current scope ws) {f} (he : r.Edits baseline current scope f) :
    r.Renews (r.performAll identities ws) baseline current scope (.presence f.resource) :=
  ⟨rfl, ⟨f, rfl, he⟩, only_performAll _ _ (h.presents f he)⟩

variable {baseline current scope identities f}

theorem capture_adds
    (h : r.Adds (r.capture baseline current scope identities).2 f) :
    (f.field = present ∧ r.Deletes baseline current scope f.resource) ∨
      (r.Edits baseline current scope f ∧ r.Renews (r.capture baseline current scope identities).2
        baseline current scope (.presence f.resource)) ∨
      r.Renews (r.capture baseline current scope identities).2 baseline current scope f := by
  cases hc : r.capture baseline current scope identities
  case mk res r' =>
    simp only [hc] at h ⊢
    cases res
    case ok x =>
      have ⟨ws, he, hs⟩ := capture_ok hc
      subst he
      have ⟨w, hw, hf⟩ := exists_write_of_adds h
      subst hf
      cases hs.reasons w hw
      case deletion ρ hd => exact .inl ⟨rfl, hd⟩
      case edit f he => exact .inr (.inl ⟨he, hs.renews he⟩)
      case presence f he => exact .inr (.inr (hs.renews he))
    case error e =>
      have ⟨ws, he, hs, _⟩ := capture_error hc
      subst he
      have ⟨w, hw, hf⟩ := exists_write_of_adds h
      have ⟨ρ, hd, hw⟩ := hs w hw
      subst hf hw
      exact .inl ⟨rfl, hd⟩

theorem deletes_of_visible {baseline current scope identities ρ i v}
    (hv : (r.capture baseline current scope identities).2.document.Visible
      (presence ρ).key i v) (hn : r.document.op? i = none)
    (hr : v.referent = some (digest (SyncValue.bool false).bytes)) :
    r.Deletes baseline current scope ρ := by
  have ⟨p, hp, hk, _⟩ := hv.held
  have hd : (r.capture baseline current scope identities).2.Holds (.presence ρ)
    (digest (SyncValue.bool false).bytes) := ⟨i, v, hv, hr⟩
  have hne : ¬(r.capture baseline current scope identities).2.Only (.presence ρ)
      (digest (SyncValue.bool true).bytes) :=
    fun ho => absurd (digest_bool (ho.unique _ hd)) (by simp)
  rcases capture_adds ⟨i, p, hp, hn, hk⟩ with ⟨_, h⟩ | ⟨_, h⟩ | h
  · exact h
  · exact absurd h.value hne
  · exact absurd h.value hne

@[simp]
theorem capture_actor (r : SyncReplica) (baseline current scope identities) :
    (r.capture baseline current scope identities).2.actor = r.actor := by
  have ⟨ws, he, _⟩ := capture_writes r baseline current scope identities
  simp [he]

@[simp]
theorem capture_fixed (r : SyncReplica) (baseline current scope identities) :
    (r.capture baseline current scope identities).2.fixed = r.fixed := by
  have ⟨ws, he, _⟩ := capture_writes r baseline current scope identities
  simp [he]

theorem le_capture (r : SyncReplica) (baseline current scope identities) :
    r.document ≤ (r.capture baseline current scope identities).2.document := by
  have ⟨ws, he, _⟩ := capture_writes r baseline current scope identities
  exact he ▸ le_performAll

theorem capture_candidates
    (h : ¬r.Adds (r.capture baseline current scope identities).2 f) {cs}
    (hc : r.candidates f = .ok cs) :
    (r.capture baseline current scope identities).2.candidates f = .ok cs := by
  have ⟨ws, he, _⟩ := capture_writes r baseline current scope identities
  have hg := getAll_of_not_adds (le_capture r baseline current scope identities) h
  rw [← hc]
  refine candidates_congr hg fun d hd => ?_
  have hr : r.Resolves f d := by
    have ⟨c, hm, hv⟩ := (holds_iff hc).mp ((holds_congr hg).mp hd)
    exact hv ▸ candidates_resolve hc hm
  refine iff_of_true ?_ hr
  rw [he]
  rcases hr with hr | hr | hr
  · exact .inl hr
  · exact .inr (.inl (mem_values_performAll hr))
  · exact .inr (.inr (by rwa [skips_performAll]))

-- Capture writes only what the device observed, with one exception: an edit of a field also renews
-- the presence register of its resource.
theorem capture_only_observed (r : SyncReplica) (baseline : SyncValues) (current : SyncProjection)
    (scope : SyncScope) (identities : Nat → Uuid) :
    let r' := (r.capture baseline current scope identities).2
    (∀ i p, r'.document.op? i = some p → r.document.op? i = none →
      ∃ f : SyncFieldId, f.key = p.key ∧ r.Admits scope f ∧
        (Observed baseline current f ∨ r.Renews r' baseline current scope f)) ∧
    (∀ ρ i v, r'.document.Visible (SyncFieldId.presence ρ).key i v → r.document.op? i = none →
      v.referent = some (digest (SyncValue.bool false).bytes) →
      ρ.kind ∈ current.complete ∧ (SyncFieldId.presence ρ).key ∈ baseline ∧
        (SyncFieldId.presence ρ).key ∉ current.values) ∧
    (∀ f : SyncFieldId, f.resource.kind ∉ current.complete → f.key ∉ current.values →
      ¬r.Renews r' baseline current scope f → ¬r.Adds r' f) ∧
    (∀ f, ¬r.Adds r' f → r'.document.getAll f.key = r.document.getAll f.key ∧
      ∀ cs, r.candidates f = .ok cs → r'.candidates f = .ok cs) := by
  refine ⟨fun i p hp hn => ?_, fun ρ i v hv hn hr => ?_, fun f hc hm hr ha => ?_, fun f ha => ?_⟩
  · have ⟨ws, he, hs, _⟩ := capture_writes r baseline current scope identities
    have ⟨f, hf⟩ : ∃ f : SyncFieldId, f.key = p.key := by
      rcases op?_performAll (he ▸ hp) with hp | ⟨_, w, _, hk, _⟩
      · simp [hn] at hp
      · exact ⟨w.field, hk.symm⟩
    refine ⟨f, hf, ?_⟩
    rcases capture_adds ⟨i, p, hp, hn, hf.symm⟩ with ⟨hp, h⟩ | ⟨h, _⟩ | h
    · rw [SyncFieldId.eq_presence hp]
      exact ⟨h.admitted, .inl (.inl h.known)⟩
    · exact ⟨h.admitted, .inl h.observed⟩
    · have ⟨g, hg, he⟩ := h.edit
      have hp := SyncFieldId.eq_presence h.presence
      refine ⟨⟨hg ▸ he.admitted.included, fun hc => ?_, ?_⟩, .inr h⟩
      · exact he.admitted.seen (skips_of_skips_presence (hg ▸ hp ▸ hc))
      · rw [h.presence]
        exact supportsField_present (hg ▸ he.admitted.included)
  · have h := deletes_of_visible hv hn hr
    exact ⟨h.complete, h.known, h.absent⟩
  · rcases capture_adds ha with ⟨_, h⟩ | ⟨h, _⟩ | h
    · exact hc h.complete
    · exact h.read.elim hc hm
    · exact hr h
  · exact ⟨getAll_of_not_adds (le_capture r baseline current scope identities) ha,
      fun cs => capture_candidates ha⟩

section New

variable (a : Uuid) (scope : SyncScope) (identities : Nat → Uuid)

theorem op?_capture_new {baseline current i p}
    (h : ((new a).capture baseline current scope identities).2.document.op? i = some p) :
    i.actor = a := by
  have ⟨ws, he, _⟩ := capture_writes (new a) baseline current scope identities
  rw [he] at h
  rcases op?_performAll h with h | ⟨ha, _⟩
  · simp [new] at h
  · exact ha

variable (hv : (presence ρ).Valid) (hi : scope.includes ρ.kind)
include hv hi

omit [Platform] hv in
theorem admits_presence_new : (new a).Admits scope (.presence ρ) :=
  ⟨hi, by simp [skips, new], supportsField_present hi⟩

theorem capture_new_gone {baseline : SyncValues}
    (hb : ∀ k, k ∈ baseline ↔ k = (presence ρ).key) {complete : BTreeSet String}
    (hc : ρ.kind ∈ complete) :
    let r := ((new a).capture baseline { complete } scope identities).2
    r.Valid ∧ r.Stores booleans ∧ r.Gone ρ := by
  have hS : ∀ b, SyncValue.bool b ∈ booleans := fun b => ⟨b, rfl⟩
  have hn : (new a).Stores booleans := by
    intro id v hv
    simp [new] at hv
  have hd : (new a).Deletes baseline { complete } scope ρ :=
    ⟨hv, admits_presence_new a scope hi, hc, (hb _).mpr rfl, by simp⟩
  have hk (k : String) (h : k ∈ baseline ∨ k ∈ ({ complete } : SyncProjection).values) :
      ∃ f, fromKey k = some f := by
    simp only [ExtTreeMap.not_mem_empty, or_false, hb] at h
    exact ⟨_, h ▸ fromKey_key hv⟩
  obtain ⟨x, r', hr⟩ := exists_capture_ok (new a) scope identities hk
  obtain ⟨ws, hw, h⟩ := capture_ok hr
  refine ⟨(valid_new a).capture hS (by simp) collisionless_booleans hn, ?_⟩
  rw [hr, hw]
  exact ⟨hn.performAll (Captures.writesIn hS (by simp) h.reasons),
    h.gone hS (by simp) (valid_new a) collisionless_booleans hn hd⟩

theorem capture_new_present {current : SyncProjection}
    (hc : ∀ k v, current.values[k]? = some v ↔ k = (presence ρ).key ∧ v = .bool true) :
    let r := ((new a).capture ∅ current scope identities).2
    r.Valid ∧ r.Stores booleans ∧ r.Only (.presence ρ) (digest (SyncValue.bool true).bytes) := by
  have hS : ∀ b, SyncValue.bool b ∈ booleans := fun b => ⟨b, rfl⟩
  have hs : ∀ (k : String) v, current.values[k]? = some v → v ∈ booleans :=
    fun k v h => ⟨true, ((hc k v).mp h).2⟩
  have hn : (new a).Stores booleans := by
    intro id v hv
    simp [new] at hv
  have hp := (hc ..).mpr ⟨rfl, rfl⟩
  have hm : (presence ρ).key ∈ current.values := mem_iff_getElem?_eq_some.mpr ⟨_, hp⟩
  have he : (new a).Edits ∅ current scope (.presence ρ) :=
    ⟨hv, .inr hm, admits_presence_new a scope hi, .inr hm, fun h => by simpa using h.known,
      .inl (by simp [hp])⟩
  have hk (k : String) (h : k ∈ (∅ : SyncValues) ∨ k ∈ current.values) :
      ∃ f, fromKey k = some f := by
    simp only [ExtTreeMap.not_mem_empty, false_or, mem_iff_getElem?_eq_some, hc] at h
    obtain ⟨_, h, _⟩ := h
    exact ⟨_, h ▸ fromKey_key hv⟩
  obtain ⟨x, r', hr⟩ := exists_capture_ok (new a) scope identities hk
  obtain ⟨ws, hw, h⟩ := capture_ok hr
  refine ⟨(valid_new a).capture hS hs collisionless_booleans hn, ?_⟩
  rw [hr, hw]
  exact ⟨hn.performAll (Captures.writesIn hS hs h.reasons),
    only_performAll _ _ (h.presents _ he)⟩

end New

theorem preserve_writes (r : SyncReplica) (identities)
    (hk : ∀ k ∈ projection.values, ∃ f, fromKey k = some f) :
    ∃ ws, (r.preserve projection identities).2 = r.performAll identities ws ∧
      ∀ w, w ∈ ws ↔ w.field.Valid ∧ ∃ v, projection.values[w.field.key]? = some v ∧
        w.value = some v := by
  have hm : (parseKeys projection.values.keys).2 = false := by
    by_contra hc
    have ⟨k, hm, hn⟩ := parseKeys_malformed (Bool.not_eq_false _ ▸ hc)
    have ⟨f, hf⟩ := hk k (ExtTreeMap.mem_keys.mp hm)
    simp [hf] at hn
  refine ⟨_, rfl, fun w => ?_⟩
  simp only [mem_filterMap, Option.map_eq_some_iff]
  constructor
  case mp =>
    rintro ⟨f, hf, v, hv, rfl⟩
    exact ⟨(mem_parseKeys hf).1, v, hv, rfl⟩
  case mpr =>
    rintro ⟨hv, v, hp, hw⟩
    have hk : w.field.key ∈ projection.values := mem_iff_getElem?_eq_some.mpr ⟨v, hp⟩
    refine ⟨w.field, parseKeys_complete hm hv (ExtTreeMap.mem_keys.mpr hk), v, hp, ?_⟩
    cases w
    simp_all

omit [Platform] in
-- A name that is observed without the presence of its connection: capturing it writes the presence
-- register, whose key occurs in neither state.
theorem capture_writes_unobserved : ∃ (_ : Platform) (r : SyncReplica) (baseline : SyncValues)
    (current : SyncProjection) (scope : SyncScope) (identities : Nat → Uuid) (f : SyncFieldId),
    r.Adds (r.capture baseline current scope identities).2 f ∧
      ¬Observed baseline current f := by
  let name : SyncFieldId := ⟨⟨"connection", "c1"⟩, "name"⟩
  let current : SyncProjection :=
    { values := (∅ : SyncValues).insert name.key (.new (.string "a"))
      complete := (∅ : BTreeSet String).insert "connection" }
  refine ⟨.sample, .new 1, ∅, current, {}, fun _ => 0, .presence name.resource, ?_, ?_⟩
  case refine_1 =>
    generalize Platform.sample = platform
    have he : (new 1).Edits ∅ current {} name :=
      { valid := by constructor <;> simp [name]
        observed := .inr (by simp [current])
        admitted := ⟨by decide, by simp [skips, new], by decide⟩
        read := .inr (by simp [current])
        kept := fun h => by simpa using h.known
        changed := .inl (by simp [current]) }
    have hk (k : String) (hk : k ∈ (∅ : SyncValues) ∨ k ∈ current.values) :
        ∃ f, SyncFieldId.fromKey k = some f := by
      simp only [current, ExtTreeMap.not_mem_empty, ExtTreeMap.mem_insert, false_or, or_false,
        LawfulEqCmp.compare_eq_iff_eq] at hk
      exact ⟨name, hk ▸ SyncFieldId.fromKey_key he.valid⟩
    obtain ⟨x, r', hc⟩ := exists_capture_ok (new 1) {} (fun _ => 0) hk
    obtain ⟨ws, hw, h⟩ := capture_ok hc
    obtain ⟨i, v, hv, _⟩ := (only_performAll (new 1) (fun _ => 0) (h.presents name he)).holds
    obtain ⟨p, hp, hpk, _⟩ := hv.held
    rw [hc, hw]
    exact ⟨i, p, hp, by simp [new], hpk⟩
  case refine_2 =>
    simp only [Observed, current, ExtTreeMap.not_mem_empty, ExtTreeMap.mem_insert, false_or,
      or_false, LawfulEqCmp.compare_eq_iff_eq]
    intro hk
    have := congrArg SyncFieldId.field (SyncFieldId.key_injective hk)
    exact absurd this (by decide)

end NyaTerm.SyncReplica

import NyaTerm.Lib.Bisect
import NyaTerm.Sync.Replica

open List

open Std

namespace NyaTerm

open SyncFieldId

variable {keys : List String} {f : SyncFieldId}

structure SyncApplication where
  effective : SyncValues
  deferred : List SyncFieldId

-- Existing fields are atomic groups; creation and deletion are atomic for the whole resource.
structure ChangeGroup where
  resource : SyncResourceId
  field : Option String
  deriving DecidableEq

namespace ChangeGroup

instance : Ord ChangeGroup where
  compare := compareLex (compareOn resource) (compareOn field)

instance : TransOrd ChangeGroup :=
  inferInstanceAs <| TransCmp (compareLex (compareOn resource) (compareOn field))

theorem compare_eq (g h : ChangeGroup) :
    compare g h = (compare g.resource h.resource).then (compare g.field h.field) := rfl

instance : LawfulEqOrd ChangeGroup where
  compare_self := by simp
  eq_of_compare {g h} he := by
    cases g; cases h
    simpa [compare_eq, Ordering.then_eq_eq] using he

end ChangeGroup

variable {k : String}

namespace Application

variable (localValues desired : SyncValues)

def group (field : SyncFieldId) : ChangeGroup :=
  let presence := (SyncFieldId.presence field.resource).key
  let wholeResource := localValues.contains presence != desired.contains presence
  ⟨field.resource, if wholeResource then none else some field.field⟩

-- The fields whose values differ. A field of both states is listed twice.
def changedFields : Except SyncError (List SyncFieldId) :=
  (localValues.keys ++ desired.keys).filter (fun key => localValues[key]? ≠ desired[key]?)
    |>.mapM SyncFieldId.parseKey

def grouped (fields : List SyncFieldId) : BTreeMap ChangeGroup (List String) :=
  Index.build (group localValues desired) (fun keys field => keys.getD [] ++ [field.key]) fields

-- `sort` and `dedup`.
def normalize {α : Type} [Ord α] [TransOrd α] (xs : List α) : List α :=
  (ExtTreeSet.ofList xs : BTreeSet α).toList

def groups (fields : List SyncFieldId) : List (List String) :=
  (grouped localValues desired fields).toList.map fun (_, keys) => normalize keys

def applyGroup (effective : SyncValues) (keys : List String) : SyncValues :=
  Patch.apply effective (keys.map fun key => (key, desired[key]?))

section

variable {localValues desired : SyncValues}

theorem mem_normalize [Ord α] [TransOrd α] [LawfulEqOrd α] [DecidableEq α] {x : α} {xs : List α} :
    x ∈ normalize xs ↔ x ∈ xs := by
  simp [normalize]

theorem normalize_nodup [Ord α] [TransOrd α] [LawfulEqOrd α] (xs : List α) : (normalize xs).Nodup :=
  ExtTreeSet.ordered_toList.imp fun {a b} hl he => by subst he; simp at hl

theorem mem_or_mem_of_ne (h : localValues[k]? ≠ desired[k]?) :
    k ∈ localValues ∨ k ∈ desired := by
  by_contra hc
  simp only [not_or] at hc
  exact h (by rw [ExtTreeMap.getElem?_eq_none hc.1, ExtTreeMap.getElem?_eq_none hc.2])

section

variable {fields : List SyncFieldId} (h : changedFields localValues desired = .ok fields)
include h

theorem mem_changedFields :
    f ∈ fields ↔ f.Valid ∧ localValues[f.key]? ≠ desired[f.key]? := by
  simp only [Fallible.mem_of_mapM h, parseKey_eq_ok, mem_filter, mem_append,
    ExtTreeMap.mem_keys, decide_eq_true_eq]
  constructor
  case mp =>
    rintro ⟨k, ⟨-, hk⟩, hv, rfl⟩
    exact ⟨hv, hk⟩
  case mpr =>
    rintro ⟨hv, hk⟩
    exact ⟨f.key, ⟨mem_or_mem_of_ne hk, hk⟩, hv, rfl⟩

theorem exists_changedField
    (hk : localValues[k]? ≠ desired[k]?) : ∃ f ∈ fields, f.key = k := by
  have hx := Fallible.exists_mapM_eq_ok.mp ⟨_, h⟩ k (by simp [mem_or_mem_of_ne hk, hk])
  have ⟨f, hf⟩ := hx
  have ⟨hv, hk'⟩ := parseKey_eq_ok.mp hf
  exact ⟨f, (mem_changedFields h).mpr ⟨hv, hk' ▸ hk⟩, hk'⟩

end

theorem changedFields_error (h : changedFields localValues desired = .error e) :
    ∃ k, localValues[k]? ≠ desired[k]? ∧ fromKey k = none := by
  have ⟨k, hk, he⟩ := Fallible.exists_of_mapM_eq_error h
  simp only [mem_filter, decide_eq_true_eq] at hk
  exact ⟨k, hk.2, parseKey_eq_error he⟩

theorem getElem?_grouped (fields : List SyncFieldId) (g : ChangeGroup) :
    (grouped localValues desired fields)[g]? =
      let keys := (fields.filter (group localValues desired · = g)).map key
      if keys.isEmpty then none else some keys := by
  have hf (fs : List SyncFieldId) (keys : Option (List String)) :
      fs.foldl (fun b f => some (b.getD [] ++ [f.key])) keys =
        if fs.isEmpty then keys else some (keys.getD [] ++ fs.map key) := by
    induction fs generalizing keys
    case nil => rfl
    case cons f fs hi =>
      rw [foldl_cons, hi]
      cases fs <;> simp
  simp [grouped, Index.getElem?_build, hf]

-- The keys of the changed fields of one group.
def IsGroup (localValues desired : SyncValues) (fields : List SyncFieldId) (g : ChangeGroup)
    (keys : List String) : Prop :=
  ∀ k, k ∈ keys ↔ ∃ f ∈ fields, f.key = k ∧ group localValues desired f = g

variable {fields : List SyncFieldId}

theorem isGroup_normalize (h : (g, keys) ∈ (grouped localValues desired fields).toList) :
    IsGroup localValues desired fields g (normalize keys) := by
  intro k
  rw [ExtTreeMap.mem_toList_iff_getElem?_eq_some, getElem?_grouped] at h
  simp only [isEmpty_map, Option.ite_none_left_eq_some, Option.some.injEq] at h
  simp [mem_normalize, ← h.2, and_assoc, and_comm]

theorem isGroup_of_mem (h : keys ∈ groups localValues desired fields) :
    ∃ g, IsGroup localValues desired fields g keys := by
  simp only [groups, mem_map, Prod.exists] at h
  obtain ⟨g, ks, hm, hk⟩ := h
  exact ⟨g, hk ▸ isGroup_normalize hm⟩

theorem exists_group (localValues desired : SyncValues) (h : f ∈ fields) :
    ∃ keys ∈ groups localValues desired fields,
      IsGroup localValues desired fields (group localValues desired f) keys := by
  let g := group localValues desired f
  have hg : (grouped localValues desired fields)[g]? =
      some ((fields.filter (group localValues desired · = g)).map key) := by
    rw [getElem?_grouped, if_neg]
    simp only [isEmpty_map, List.isEmpty_iff, filter_eq_nil_iff, not_forall]
    exact ⟨f, h, by simp [g]⟩
  rw [← ExtTreeMap.mem_toList_iff_getElem?_eq_some] at hg
  exact ⟨_, mem_map_of_mem hg, isGroup_normalize hg⟩

theorem groups_nodup (fields : List SyncFieldId) :
    (groups localValues desired fields).flatten.Nodup := by
  rw [nodup_flatten]
  constructor
  case left =>
    intro keys hk
    simp only [groups, mem_map, Prod.exists] at hk
    obtain ⟨_, _, _, he⟩ := hk
    exact he ▸ normalize_nodup _
  case right =>
    rw [groups, pairwise_map]
    refine ExtTreeMap.distinct_keys_toList.imp_of_mem fun {a b} ha hb hne => ?_
    intro k hka hkb
    obtain ⟨f, _, hf, hga⟩ := (isGroup_normalize ha k).mp hka
    obtain ⟨f', _, hf', hgb⟩ := (isGroup_normalize hb k).mp hkb
    cases SyncFieldId.key_injective (hf.trans hf'.symm)
    exact hne (by simp [← hga, ← hgb])

theorem foldl_applyGroup (m : SyncValues) (made : List (List String)) :
    made.foldl (applyGroup desired) m =
      Patch.apply m (made.flatten.map fun key => (key, desired[key]?)) := by
  induction made generalizing m
  case nil => rfl
  case cons keys made hi => simp [hi, applyGroup, Patch.apply_append]

theorem getElem?_foldl_applyGroup (desired m : SyncValues) (made : List (List String))
    (k : String) : (made.foldl (applyGroup desired) m)[k]? =
      if k ∈ made.flatten then desired[k]? else m[k]? := by
  rw [foldl_applyGroup]
  split
  case isTrue hk =>
    refine Patch.getElem?_apply_of_mem (mem_map.mpr ⟨k, hk, rfl⟩) ?_
    simp only [mem_map, Prod.mk.injEq]
    rintro w ⟨_, _, rfl, rfl⟩
    rfl
  case isFalse hk =>
    refine Patch.getElem?_apply_of_not_mem ?_
    simp only [mem_map, Prod.mk.injEq]
    rintro w ⟨_, hk', rfl, rfl⟩
    exact hk hk'

end

end Application

open Application in
-- The adapter supplies its business validator. Invalid batches are bisected so that one bad group
-- does not require a validation for every unrelated edit.
def isolateChanges (localValues desired : SyncValues) (valid : SyncValues → Bool) :
    Except SyncError SyncApplication :=
  if valid desired then
    .ok ⟨desired, []⟩
  else if !valid localValues then
    .error .invalidReplica
  else do
    let fields ← changedFields localValues desired
    let pending := groups localValues desired fields
    let (effective, deferred) := Bisect.settle valid (applyGroup desired) pending localValues
    return ⟨effective, normalize (deferred.flatten.filterMap SyncFieldId.fromKey)⟩

namespace Application

-- What isolating changes promises. A change group is taken from one of the two states as a whole,
-- what differs from the desired state is deferred, and no deferred group can be taken as well.
structure Isolated (localValues desired : SyncValues) (valid : SyncValues → Bool)
    (app : SyncApplication) : Prop where
  sound : valid app.effective
  whole : valid desired → app.effective = desired ∧ app.deferred = []
  atomic : ∀ g, (∀ f, group localValues desired f = g → app.effective[f.key]? = desired[f.key]?) ∨
    (∀ f, group localValues desired f = g → app.effective[f.key]? = localValues[f.key]?)
  deferred : app.deferred.Nodup ∧
    ∀ k, app.effective[k]? ≠ desired[k]? ↔ ∃ f ∈ app.deferred, f.key = k
  maximal : ∀ f ∈ app.deferred, ∀ m : SyncValues,
    (∀ k, m[k]? = if (SyncFieldId.fromKey k).map (group localValues desired) =
        some (group localValues desired f) then desired[k]? else app.effective[k]?) →
    valid m = false

section

variable {localValues desired : SyncValues} {valid : SyncValues → Bool} {fields : List SyncFieldId}
  {made deferred : List (List String)} {effective : SyncValues}

section

variable (h : Bisect.Settled valid (applyGroup desired) (groups localValues desired fields)
  localValues effective made deferred)
include h

theorem getElem?_settled (k : String) :
    effective[k]? = if k ∈ made.flatten then desired[k]? else localValues[k]? := by
  rw [h.state, getElem?_foldl_applyGroup]

omit h in
theorem ne_desired_iff (hf : changedFields localValues desired = .ok fields)
    (h : Bisect.Settled valid (applyGroup desired) (groups localValues desired fields) localValues
      effective made deferred) (k : String) :
    effective[k]? ≠ desired[k]? ↔ k ∈ deferred.flatten := by
  have hp : (groups localValues desired fields).flatten.Perm (made.flatten ++ deferred.flatten) := by
    simpa using h.perm.flatten
  rw [getElem?_settled h]
  constructor
  case mp =>
    intro hk
    split at hk
    case isTrue => exact absurd rfl hk
    case isFalse hm =>
      have ⟨f, hfm, hfk⟩ := exists_changedField hf hk
      obtain ⟨keys, hkeys, hg⟩ := exists_group localValues desired hfm
      have hmem := mem_flatten.mpr ⟨keys, hkeys, (hg k).mpr ⟨f, hfm, hfk, rfl⟩⟩
      simpa [hm] using hp.mem_iff.mp hmem
  case mpr =>
    intro hk
    have hd := (hp.nodup_iff.mp (groups_nodup fields))
    have hm : k ∉ made.flatten := fun hm => (nodup_append.mp hd).2.2 k hm k hk rfl
    obtain ⟨keys, hkeys, hkm⟩ := mem_flatten.mp (hp.mem_iff.mpr (mem_append_right _ hk))
    have ⟨g, hg⟩ := isGroup_of_mem hkeys
    have ⟨f, hfm, hfk, _⟩ := (hg k).mp hkm
    rw [if_neg hm, ← hfk]
    exact ((mem_changedFields hf).mp hfm).2

theorem isGroup_deferred
    (hd : keys ∈ deferred) (hf : f.key ∈ keys) :
    f ∈ fields ∧ IsGroup localValues desired fields (group localValues desired f) keys := by
  have ⟨g, hg⟩ := isGroup_of_mem (h.perm.mem_iff.mpr (mem_append_right made hd))
  have ⟨f', hm, hk, hgf⟩ := (hg f.key).mp hf
  cases SyncFieldId.key_injective hk
  exact ⟨hm, hgf ▸ hg⟩

end

section

variable (hf : changedFields localValues desired = .ok fields)
  (h : Bisect.Settled valid (applyGroup desired) (groups localValues desired fields)
  localValues effective made deferred)
include hf h

theorem eq_local_of_mem_deferred (hk : k ∈ deferred.flatten) :
    effective[k]? = localValues[k]? := by
  have hn := (ne_desired_iff hf h k).mpr hk
  rw [getElem?_settled h] at hn ⊢
  split at hn
  case isTrue => exact absurd rfl hn
  case isFalse hm => rw [if_neg hm]

theorem eq_of_not_mem_group (hg : IsGroup localValues desired fields g keys)
    (hfg : group localValues desired f = g) (hk : f.key ∉ keys) :
    effective[f.key]? = desired[f.key]? ∧ localValues[f.key]? = desired[f.key]? := by
  have hu : localValues[f.key]? = desired[f.key]? := by
    by_contra hc
    have ⟨f', hm, hk'⟩ := exists_changedField hf hc
    cases SyncFieldId.key_injective hk'
    exact hk ((hg f.key).mpr ⟨f, hm, rfl, hfg⟩)
  refine ⟨?_, hu⟩
  rw [getElem?_settled h, hu, ite_self]

end

theorem isolated_of_settled (hd : valid desired = false) (hl : valid localValues)
    (hf : changedFields localValues desired = .ok fields)
    (h : Bisect.Settled valid (applyGroup desired) (groups localValues desired fields) localValues
      effective made deferred) :
    Isolated localValues desired valid
      ⟨effective, normalize (deferred.flatten.filterMap fromKey)⟩ where
  sound := h.sound hl
  whole hv := by simp [hd] at hv
  atomic g := by
    by_cases hg : ∃ f, group localValues desired f = g ∧ f.key ∈ deferred.flatten
    case neg =>
      refine .inl fun f hfg => ?_
      by_contra hc
      exact hg ⟨f, hfg, (ne_desired_iff hf h _).mp hc⟩
    case pos =>
      obtain ⟨f, hfg, hfk⟩ := hg
      obtain ⟨keys, hkd, hk⟩ := mem_flatten.mp hfk
      have hgk := hfg ▸ (isGroup_deferred h hkd hk).2
      refine .inr fun f' hfg' => ?_
      by_cases hk' : f'.key ∈ keys
      case pos => exact eq_local_of_mem_deferred hf h (mem_flatten.mpr ⟨keys, hkd, hk'⟩)
      obtain ⟨he, hu⟩ := eq_of_not_mem_group hf h hgk hfg' hk'
      exact he.trans hu.symm
  deferred := by
    refine ⟨normalize_nodup _, fun k => ?_⟩
    simp only [ne_desired_iff hf h, mem_normalize, mem_filterMap, fromKey_eq_some]
    constructor
    case mp =>
      intro hk
      have ⟨keys, hkd, hkk⟩ := mem_flatten.mp hk
      have ⟨g, hg⟩ := isGroup_of_mem (h.perm.mem_iff.mpr (mem_append_right made hkd))
      have ⟨f, hm, hfk, _⟩ := (hg k).mp hkk
      exact ⟨f, ⟨k, hk, ((mem_changedFields hf).mp hm).1, hfk⟩, hfk⟩
    case mpr =>
      rintro ⟨f, ⟨k', hk', _, rfl⟩, rfl⟩
      exact hk'
  maximal f hfd m hm := by
    simp only [mem_normalize, mem_filterMap, fromKey_eq_some] at hfd
    have ⟨_, hk, _, hfk⟩ := hfd
    subst hfk
    have ⟨keys, hkd, hkk⟩ := mem_flatten.mp hk
    have ⟨_, hg⟩ := isGroup_deferred h hkd hkk
    -- Taking the whole group and taking its changed keys is the same.
    have he : m = applyGroup desired effective keys := by
      apply ExtTreeMap.ext_getElem?
      intro k
      have ha := getElem?_foldl_applyGroup desired effective [keys] k
      simp only [foldl_cons, foldl_nil, flatten_singleton] at ha
      rw [hm, ha]
      by_cases hkm : k ∈ keys
      case pos =>
        have ⟨f', hm', hk', hg'⟩ := (hg k).mp hkm
        have hp := fromKey_eq_some.mpr ⟨((mem_changedFields hf).mp hm').1, hk'⟩
        simp [hp, hg', hkm]
      case neg =>
        split
        case isFalse => rfl
        case isTrue hc =>
          have ⟨f', hp, hg'⟩ := Option.map_eq_some_iff.mp hc
          have ⟨_, hk'⟩ := fromKey_eq_some.mp hp
          subst hk'
          exact (eq_of_not_mem_group hf h hg hg' hkm).1.symm
    simpa [he] using h.maximal keys hkd

end

end Application

end NyaTerm

import NyaTerm.Sync.Theorems.Registers

open Std Causal

namespace NyaTerm.SyncReplica

open Fallible

-- The register of a field shows different values, or only one.
def Disputed (r : SyncReplica) (f : SyncFieldId) : Prop :=
  ∃ d e, r.Holds f d ∧ r.Holds f e ∧ d ≠ e

structure Only (r : SyncReplica) (f : SyncFieldId) (d : String) : Prop where
  holds : r.Holds f d
  unique : ∀ e, r.Holds f e → e = d

variable {r : SyncReplica}

theorem Only.not_disputed {f d} (h : r.Only f d) : ¬r.Disputed f :=
  fun ⟨d, e, hd, he, hne⟩ => hne ((h.unique d hd).trans (h.unique e he).symm)

theorem Only.eq {f d e} (h : r.Only f d) (h' : r.Only f e) : d = e :=
  h'.unique d h.holds

theorem only_of_not_disputed {f d} (h : ¬r.Disputed f) (hd : r.Holds f d) :
    r.Only f d where
  holds := hd
  unique e he := by
    by_contra hne
    exact h ⟨e, d, he, hd, hne⟩

section Distinct

variable (h : r.candidates f = .ok cs)
include h

theorem one_lt_distinct_iff : 1 < distinct cs ↔ r.Disputed f := by
  simp only [one_lt_distinct, Disputed, holds_iff h]
  constructor
  case mp =>
    rintro ⟨a, ha, b, hb, hne⟩
    exact ⟨_, _, ⟨a, ha, rfl⟩, ⟨b, hb, rfl⟩, hne⟩
  case mpr =>
    rintro ⟨_, _, ⟨a, ha, rfl⟩, ⟨b, hb, rfl⟩, hne⟩
    exact ⟨a, ha, b, hb, hne⟩

theorem distinct_eq_one_iff : distinct cs = 1 ↔ ∃ d, r.Only f d := by
  rw [distinct_eq_one]
  constructor
  case mp =>
    rintro ⟨a, ha, hu⟩
    refine ⟨a.value, (holds_iff h).mpr ⟨a, ha, rfl⟩, fun e he => ?_⟩
    have ⟨b, hb, hbe⟩ := (holds_iff h).mp he
    exact hbe ▸ hu b hb
  case mpr =>
    rintro ⟨d, ho⟩
    have ⟨a, ha, hd⟩ := (holds_iff h).mp ho.holds
    refine ⟨a, ha, fun b hb => ?_⟩
    exact (ho.unique b.value ((holds_iff h).mpr ⟨b, hb, rfl⟩)).trans hd.symm

theorem Only.candidate {d} (ho : r.Only f d) {c} (hc : c ∈ cs) : c.value = d :=
  ho.unique _ ((holds_iff h).mpr ⟨c, hc, rfl⟩)

end Distinct

-- The presence register of a resource holds false and nothing else.
def Gone (r : SyncReplica) (ρ : SyncResourceId) : Prop :=
  ∃ d v, r.Only (.presence ρ) d ∧ r.values[d]? = some v ∧ v.decode = .bool false

theorem Gone.not_disputed {ρ} : r.Gone ρ → ¬r.Disputed (.presence ρ)
  | ⟨_, _, ho, _⟩ => ho.not_disputed

theorem candidateValue_eq_ok {c v} :
    r.candidateValue c = .ok v ↔ r.values[c.value]? = some v := by
  unfold candidateValue
  split <;> simp_all

-- What a referent stands for: a value that is held, or no value for the tombstone.
inductive Reads (r : SyncReplica) : String → Option SyncValue → Prop
  | tombstone : Reads r deleted none
  | value {d v} (hd : d ≠ deleted) (hv : r.values[d]? = some v) : Reads r d (some v)

theorem Reads.unique {d v w} (h₁ : r.Reads d v) (h₂ : r.Reads d w) : v = w := by
  cases h₁
  case tombstone =>
    cases h₂
    case tombstone => rfl
    case value hd _ => contradiction
  case value hd hv =>
    cases h₂
    case tombstone => contradiction
    case value _ hw => rw [← hv, ← hw]

theorem Reads.held {d v} (h : r.Reads d (some v)) : r.values[d]? = some v := by
  cases h
  case value hv => exact hv

theorem Reads.eq_deleted {d} (h : r.Reads d none) : d = deleted := by
  cases h
  rfl

theorem reads_of_ne {d v} (h : d ≠ deleted) :
    r.Reads d v ↔ ∃ w, r.values[d]? = some w ∧ v = some w := by
  constructor
  case mp =>
    intro hr
    cases hr
    case tombstone => contradiction
    case value w _ hw => exact ⟨w, hw, rfl⟩
  case mpr =>
    rintro ⟨w, hw, rfl⟩
    exact .value h hw

theorem exists_reads {f d} (h : r.Resolves f d) (hs : ¬r.skips f) :
    ∃ v, r.Reads d v := by
  by_cases hd : d = deleted
  case pos => exact ⟨none, hd ▸ .tombstone⟩
  have hm := (h.resolve_left hd).resolve_right hs
  have ⟨v, hv⟩ := mem_iff_getElem?_eq_some.mp hm
  exact ⟨some v, .value hd hv⟩

theorem boolean_eq_ok {cs b} : r.boolean cs = .ok b ↔
    (cs = [] ∧ b = none) ∨ ∃ c cs' v x, cs = c :: cs' ∧ r.values[c.value]? = some v ∧
      v.decode = .bool x ∧ b = some x := by
  cases cs
  case nil => simp [boolean, eq_comm]
  case cons c cs =>
    simp only [boolean, List.head?_cons, bind_eq_ok, candidateValue_eq_ok]
    constructor
    case mp =>
      rintro ⟨v, hv, h⟩
      cases hx : v.decode <;> simp [hx, Json.asBool] at h
      exact .inr ⟨c, cs, v, _, rfl, hv, hx, h.symm⟩
    case mpr =>
      rintro (⟨h, _⟩ | ⟨_, _, v, x, h, hv, hx, rfl⟩)
      · simp at h
      · cases h
        exact ⟨v, hv, by simp [hx, Json.asBool]⟩

theorem boolean_eq_false {ρ cs} (h : r.candidates (.presence ρ) = .ok cs)
    (hd : ¬r.Disputed (.presence ρ)) {b} (hb : r.boolean cs = .ok b) :
    b = some false ↔ r.Gone ρ := by
  rcases boolean_eq_ok.mp hb with ⟨rfl, rfl⟩ | ⟨c, cs', v, x, rfl, hv, hx, rfl⟩
  case inl =>
    simp only [reduceCtorEq, false_iff]
    rintro ⟨d, _, ho, _⟩
    simpa using (holds_iff h).mp ho.holds
  case inr =>
    have ho : r.Only (.presence ρ) c.value :=
      only_of_not_disputed hd ((holds_iff h).mpr ⟨c, by simp, rfl⟩)
    constructor
    case mp =>
      rintro ⟨⟩
      exact ⟨c.value, v, ho, hv, hx⟩
    case mpr =>
      rintro ⟨d, w, ho', hw, hf⟩
      cases ho.eq ho'
      simp_all

theorem hidden_iff {ρ cs b} (h : r.candidates (.presence ρ) = .ok cs)
    (hb : r.hidden cs = .ok b) : b = true ↔ r.Disputed (.presence ρ) ∨ r.Gone ρ := by
  unfold hidden at hb
  split at hb
  case isTrue hd =>
    cases hb
    simp [(one_lt_distinct_iff h).mp hd]
  case isFalse hd =>
    rw [gt_iff_lt, one_lt_distinct_iff h] at hd
    simp only [bind_eq_ok, pure_eq_ok] at hb
    have ⟨x, hx, hb⟩ := hb
    simp [← hb, hd, boolean_eq_false h hd hx]

-- Whether a resource is present can be told, unless it is disputed.
structure Decided (r : SyncReplica) (ρ : SyncResourceId) : Prop where
  written : r.Written (.presence ρ)
  boolean : ∀ d, r.Only (.presence ρ) d → ∃ v b, r.values[d]? = some v ∧ v.decode = .bool b

theorem exists_boolean {ρ cs} (h : r.candidates (.presence ρ) = .ok cs)
    (hd : ¬r.Disputed (.presence ρ)) (hp : r.Decided ρ) : ∃ b, r.boolean cs = .ok b := by
  cases cs
  case nil => exact ⟨none, rfl⟩
  case cons c cs =>
    have ho : r.Only (.presence ρ) c.value :=
      only_of_not_disputed hd ((holds_iff h).mpr ⟨c, by simp, rfl⟩)
    have ⟨v, b, hv, hb⟩ := hp.boolean _ ho
    exact ⟨some b, boolean_eq_ok.mpr (.inr ⟨c, cs, v, b, rfl, hv, hb, rfl⟩)⟩

theorem exists_hidden {ρ cs} (hw : r.Written (.presence ρ))
    (h : r.candidates (.presence ρ) = .ok cs) : (∃ b, r.hidden cs = .ok b) ↔ r.Decided ρ := by
  constructor
  case mp =>
    rintro ⟨b, hb⟩
    refine ⟨hw, fun d ho => ?_⟩
    unfold hidden at hb
    rw [if_neg ((one_lt_distinct_iff h).not.mpr ho.not_disputed)] at hb
    simp only [bind_eq_ok] at hb
    have ⟨x, hx, _⟩ := hb
    rcases boolean_eq_ok.mp hx with ⟨rfl, _⟩ | ⟨c, cs', v, b, rfl, hv, hb, _⟩
    · simpa using (holds_iff h).mp ho.holds
    · exact ⟨v, b, ho.candidate h (.head _ ..) ▸ hv, hb⟩
  case mpr =>
    intro hp
    unfold hidden
    split
    case isTrue => exact ⟨true, rfl⟩
    case isFalse hd =>
      have ⟨b, hb⟩ := exists_boolean h ((one_lt_distinct_iff h).not.mp hd) hp
      exact ⟨_, by simp only [hb]; rfl⟩

theorem skips_of_skips_presence (h : r.skips (.presence f.resource)) : r.skips f := by
  simp only [skips, Bool.and_eq_true, Bool.not_eq_true', Bool.eq_false_iff] at h ⊢
  exact ⟨h.1, fun hc => h.2 (fixedCloudSyncField_presence hc)⟩

-- What `conflicts` reports: a disputed register that the replica looks at, other than a field of a
-- resource whose presence is itself disputed or which is deleted.
structure Reported (r : SyncReplica) (c : SyncConflict) : Prop where
  candidates : r.candidates c.field = .ok c.candidates
  disputed : r.Disputed c.field
  seen : ¬r.skips c.field
  shown : c.field.field = SyncFieldId.present ∨
    ¬(r.Disputed (.presence c.field.resource) ∨ r.Gone c.field.resource)

theorem Disputed.written {f} : r.Disputed f → r.Written f
  | ⟨_, _, hd, _⟩ => hd.written

theorem exists_reported_presence (hr : r.Readable) {ρ}
    (hs : ¬r.skips (.presence ρ)) (hd : r.Disputed (.presence ρ)) :
    ∃ c, r.Reported c ∧ c.field = .presence ρ := by
  have ⟨cs, hc⟩ := exists_candidates.mpr (hr.fields _ hd.written)
  exact ⟨⟨_, cs⟩, ⟨hc, hd, hs, .inl rfl⟩, rfl⟩

theorem Reported.candidates_eq (h : r.Reported c) (h' : r.Reported c') (hf : c.field = c'.field) :
    c = c' := by
  have hc := h.candidates
  rw [hf, h'.candidates] at hc
  cases c; cases c'
  simp_all

variable {cs}

section Registers

variable (h : r.registers = .ok R)
include h

theorem mem_resourceConflicts {ρ fields} (hρ : R[ρ]? = some fields)
    (hc : r.resourceConflicts ρ fields = .ok cs) {c} :
    c ∈ cs ↔ c.field.resource = ρ ∧ r.Reported c := by
  unfold resourceConflicts at hc
  split at hc
  case isTrue hs =>
    cases hc
    simp only [List.not_mem_nil, false_iff, not_and]
    rintro rfl hr
    exact hr.seen (skips_of_skips_presence hs)
  case isFalse hs =>
    split at hc
    case h_1 => contradiction
    case h_2 presence hp =>
      have ⟨_, hp⟩ := (getElem?_registers h hρ).mp hp
      simp only [bind_eq_ok, pure_eq_ok] at hc
      have ⟨b, hb, hl⟩ := hc
      have hb := hidden_iff hp hb
      simp only [← hl, List.mem_filterMap, Prod.exists,
        ExtTreeMap.mem_toList_iff_getElem?_eq_some, getElem?_registers h hρ]
      constructor
      case mp =>
        rintro ⟨name, cs, ⟨_, hcs⟩, he⟩
        split at he
        case isTrue => contradiction
        case isFalse hn =>
          split at he
          case isFalse => contradiction
          case isTrue hd =>
            cases he
            simp only [Bool.or_eq_true, Bool.and_eq_true, bne_iff_ne, not_or, not_and, hb] at hn
            refine ⟨rfl, hcs, (one_lt_distinct_iff hcs).mp hd, hn.1, ?_⟩
            by_cases hx : name = SyncFieldId.present
            · exact .inl hx
            · exact .inr (not_or.mpr (hn.2 hx))
      case mpr =>
        rintro ⟨rfl, hr⟩
        refine ⟨c.field.field, c.candidates, ⟨hr.disputed.written, hr.candidates⟩, ?_⟩
        have hd := (one_lt_distinct_iff hr.candidates).mpr hr.disputed
        have hn : (r.skips c.field || (c.field.field != SyncFieldId.present && b)) = false := by
          rw [Bool.or_eq_false_iff, Bool.and_eq_false_iff, bne_eq_false_iff_eq,
            Bool.eq_false_iff (b := b), ne_eq, hb]
          exact ⟨by simpa using hr.seen, hr.shown⟩
        rw [if_neg (by simpa using hn), if_pos hd]

theorem exists_resourceConflicts {ρ fields} (hρ : R[ρ]? = some fields) :
    (∃ cs, r.resourceConflicts ρ fields = .ok cs) ↔ r.skips (.presence ρ) ∨ r.Decided ρ := by
  unfold resourceConflicts
  split
  case isTrue hs => simp [hs]
  case isFalse hs =>
    simp only [hs, Bool.false_eq_true, false_or]
    cases hp : fields[SyncFieldId.present]?
    case none =>
      simp only [reduceCtorEq, exists_false, false_iff]
      intro hd
      have ⟨cs, hc⟩ := exists_candidates.mpr ((exists_registers.mp ⟨R, h⟩).fields _ hd.written)
      simp [(getElem?_registers h hρ).mpr ⟨hd.written, hc⟩] at hp
    case some presence =>
      have ⟨hw, hc⟩ := (getElem?_registers h hρ).mp hp
      simp only [← exists_hidden hw hc, bind_eq_ok, pure_eq_ok]
      constructor
      case mp =>
        rintro ⟨_, b, hb, _⟩
        exact ⟨b, hb⟩
      case mpr =>
        rintro ⟨b, hb⟩
        exact ⟨_, b, hb, rfl⟩

theorem mem_conflictsFrom (hc : r.conflictsFrom R = .ok cs) {c} : c ∈ cs ↔ r.Reported c := by
  simp only [conflictsFrom, bind_eq_ok, pure_eq_ok] at hc
  obtain ⟨ls, hl, hs⟩ := hc
  rw [← hs, List.mem_insertionSort, List.mem_flatten]
  simp only [mem_of_mapM hl, Prod.exists, ExtTreeMap.mem_toList_iff_getElem?_eq_some]
  constructor
  case mp =>
    rintro ⟨l, ⟨ρ, fields, hρ, hl⟩, hm⟩
    exact ((mem_resourceConflicts h hρ hl).mp hm).2
  case mpr =>
    intro hr
    obtain ⟨fields, hρ⟩ := (mem_registers h).mpr ⟨c.field, hr.disputed.written, rfl⟩
    have hm := ExtTreeMap.mem_toList_iff_getElem?_eq_some.mpr hρ
    obtain ⟨l, hl⟩ := exists_mapM_eq_ok.mp ⟨ls, hl⟩ _ hm
    exact ⟨l, ⟨_, fields, hρ, hl⟩, (mem_resourceConflicts h hρ hl).mpr ⟨rfl, hr⟩⟩

omit h in
theorem resourceConflicts_nodup {ρ fields cs} (hc : r.resourceConflicts ρ fields = .ok cs) :
    cs.Nodup := by
  unfold resourceConflicts at hc
  split at hc
  case isTrue => cases hc; exact .nil
  split at hc
  case h_1 => contradiction
  simp only [bind_eq_ok, pure_eq_ok] at hc
  have ⟨b, _, hl⟩ := hc
  rw [← hl]
  refine ExtTreeMap.distinct_keys_toList.filterMap _ fun x y hne c hx c' hy he => hne ?_
  simp only [Option.ite_none_left_eq_some, Option.ite_none_right_eq_some,
    Option.some.injEq] at hx hy
  have hn := hx.2.2.trans (he.trans hy.2.2.symm)
  simp only [SyncConflict.mk.injEq, SyncFieldId.mk.injEq, true_and] at hn
  simp [hn.1]

theorem conflictsFrom_nodup (hc : r.conflictsFrom R = .ok cs) : cs.Nodup := by
  simp only [conflictsFrom, bind_eq_ok, pure_eq_ok] at hc
  have ⟨ls, hl, hs⟩ := hc
  rw [← hs, (List.perm_insertionSort ..).nodup_iff, List.nodup_flatten]
  constructor
  case left =>
    intro l hl'
    have ⟨_, _, hl'⟩ := (mem_of_mapM hl).mp hl'
    exact resourceConflicts_nodup hl'
  case right =>
    have hd := List.Pairwise.and_mem.mp (ExtTreeMap.distinct_keys_toList (t := R))
    refine pairwise_of_mapM hl hd fun x y l l' ⟨hx, hy, hne⟩ hl hl' c hc hc' => ?_
    rw [ExtTreeMap.mem_toList_iff_getElem?_eq_some] at hx hy
    have ⟨h₁, _⟩ := (mem_resourceConflicts h hx hl).mp hc
    have ⟨h₂, _⟩ := (mem_resourceConflicts h hy hl').mp hc'
    exact hne (by simp [← h₁, ← h₂])

theorem conflictsFrom_sorted (hc : r.conflictsFrom R = .ok cs) :
    cs.Pairwise fun a b => compare a.field b.field = .lt := by
  have hn := conflictsFrom_nodup h hc
  have hm {c} := mem_conflictsFrom h hc (c := c)
  simp only [conflictsFrom, bind_eq_ok, pure_eq_ok] at hc
  have ⟨ls, _, hs⟩ := hc
  have ho : cs.Pairwise fun a b => (compare a.field b.field).isLE := by
    let le (a b : SyncConflict) : Prop := (compare a.field b.field).isLE
    have : Std.Total le := ⟨fun a b => by
      have hs : compare b.field a.field = (compare a.field b.field).swap := OrientedCmp.eq_swap
      simp only [le, hs]
      cases compare a.field b.field <;> simp⟩
    have : IsTrans SyncConflict le := ⟨fun a b c => TransCmp.isLE_trans⟩
    exact hs ▸ List.pairwise_insertionSort le _
  refine (ho.and hn).imp_of_mem fun {a b} ha hb ⟨hle, hne⟩ => ?_
  cases hcmp : compare a.field b.field
  case lt => rfl
  case gt => simp [hcmp] at hle
  case eq =>
    exact absurd ((hm.mp ha).candidates_eq (hm.mp hb) (LawfulEqCmp.eq_of_compare hcmp)) hne

end Registers

theorem conflicts_eq_ok :
    r.conflicts = .ok cs ↔ ∃ R, r.registers = .ok R ∧ r.conflictsFrom R = .ok cs := by
  simp only [conflicts, bind_eq_ok]

-- What it takes for a replica to list its conflicts.
structure Consistent (r : SyncReplica) : Prop where
  readable : r.Readable
  decided : ∀ f, r.Written f → ¬r.skips (.presence f.resource) → r.Decided f.resource

theorem exists_conflictsFrom {R} (h : r.registers = .ok R) :
    (∃ cs, r.conflictsFrom R = .ok cs) ↔ r.Consistent := by
  have hr := exists_registers.mp ⟨R, h⟩
  have he : (∃ cs, r.conflictsFrom R = .ok cs) ↔
      ∀ ρ fields, R[ρ]? = some fields → r.skips (.presence ρ) ∨ r.Decided ρ := by
    simp only [conflictsFrom, bind_eq_ok, pure_eq_ok, exists_comm (α := List _),
      exists_and_left, exists_eq', and_true, exists_mapM_eq_ok, Prod.forall,
      ExtTreeMap.mem_toList_iff_getElem?_eq_some]
    exact forall₃_congr fun ρ fields hρ => exists_resourceConflicts h hρ
  rw [he]
  constructor
  case mp =>
    refine fun hd => ⟨hr, fun f hw hs => ?_⟩
    obtain ⟨fields, hρ⟩ := (mem_registers h).mpr ⟨f, hw, rfl⟩
    exact (hd _ fields hρ).resolve_left hs
  case mpr =>
    intro hc ρ fields hρ
    obtain ⟨f, hw, rfl⟩ := (mem_registers h).mp ⟨fields, hρ⟩
    by_cases hs : r.skips (.presence f.resource)
    · exact .inl hs
    · exact .inr (hc.decided f hw hs)

theorem exists_conflicts : (∃ cs, r.conflicts = .ok cs) ↔ r.Consistent := by
  constructor
  case mp =>
    rintro ⟨cs, h⟩
    have ⟨R, hR, hc⟩ := conflicts_eq_ok.mp h
    exact (exists_conflictsFrom hR).mp ⟨cs, hc⟩
  case mpr =>
    intro hc
    have ⟨R, hR⟩ := exists_registers.mpr hc.readable
    have ⟨cs, hs⟩ := (exists_conflictsFrom hR).mpr hc
    exact ⟨cs, conflicts_eq_ok.mpr ⟨R, hR, hs⟩⟩

theorem mem_conflicts (h : r.conflicts = .ok cs) {c} :
    c ∈ cs ↔ r.Reported c := by
  have ⟨R, hR, hc⟩ := conflicts_eq_ok.mp h
  exact mem_conflictsFrom hR hc

theorem conflicts_sorted (h : r.conflicts = .ok cs) :
    cs.Pairwise fun a b => compare a.field b.field = .lt := by
  have ⟨R, hR, hc⟩ := conflicts_eq_ok.mp h
  exact conflictsFrom_sorted hR hc

-- Lists of conflicts in the order of their fields are equal when they have the same members.
theorem eq_of_sorted {cs : List SyncConflict}
    (hc : cs.Pairwise fun a b => compare a.field b.field = .lt)
    (hd : ds.Pairwise fun a b => compare a.field b.field = .lt) (h : ∀ c, c ∈ cs ↔ c ∈ ds) :
    cs = ds := by
  have hn {cs : List SyncConflict} (hc : cs.Pairwise fun a b => compare a.field b.field = .lt) :
      cs.Nodup := hc.imp fun {a b} hl he => by subst he; simp at hl
  refine List.Perm.eq_of_pairwise ?_ hc hd ((List.perm_ext_iff_of_nodup (hn hc) (hn hd)).mpr h)
  exact fun a b _ _ h₁ h₂ => absurd h₂ (OrientedCmp.not_lt_of_lt h₁)

end NyaTerm.SyncReplica

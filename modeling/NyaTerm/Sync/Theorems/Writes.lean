import NyaTerm.Sync.Theorems.Validity

open Std Causal

namespace NyaTerm

variable [Platform]

-- No two values of a set have one digest.
def Collisionless (S : Set SyncValue) : Prop :=
  ∀ v ∈ S, ∀ w ∈ S, digest v.bytes = digest w.bytes → v = w

def booleans : Set SyncValue := {v | ∃ b, v = .bool b}

theorem collisionless_booleans : Collisionless booleans := by
  rintro _ ⟨b, rfl⟩ _ ⟨c, rfl⟩ h
  rw [digest_bool h]

namespace SyncReplica

def Write.referent (w : Write) : String :=
  match w.value with
  | some value => digest value.bytes
  | none => deleted

theorem isReferent_write (w : Write) : IsReferent w.referent := by
  unfold Write.referent
  split
  · exact isReferent_digest _
  · exact isReferent_deleted

section Perform

variable (r : SyncReplica) (w : Write) (u : Uuid)

theorem perform_document : (r.perform w u).document =
    r.document.put r.actor w.field.key (reference w.referent u) := by
  cases hw : w.value <;> simp [perform, Write.referent, hw, write, deleteField]

@[simp]
theorem perform_actor : (r.perform w u).actor = r.actor := by
  unfold perform
  split <;> rfl

@[simp]
theorem perform_fixed : (r.perform w u).fixed = r.fixed := by
  unfold perform
  split <;> rfl

theorem getElem?_perform (id : String) : (r.perform w u).values[id]? =
    match w.value with
    | some v => if digest v.bytes = id then some v else r.values[id]?
    | none => r.values[id]? := by
  cases hw : w.value <;> simp [perform, hw, write, deleteField, ExtTreeMap.getElem?_insert]

end Perform

section PerformAll

variable {r : SyncReplica}

@[simp]
theorem performAll_actor : (r.performAll identities ws).actor = r.actor := by
  induction ws generalizing r identities <;> simp_all [performAll]

@[simp]
theorem performAll_fixed : (r.performAll identities ws).fixed = r.fixed := by
  induction ws generalizing r identities <;> simp_all [performAll]

theorem skips_performAll (f : SyncFieldId) : (r.performAll identities ws).skips f = r.skips f := by
  simp [skips]

theorem le_performAll : r.document ≤ (r.performAll identities ws).document := by
  induction ws generalizing r identities
  case nil => exact Document.le_refl _
  case cons w ws hi =>
    refine Document.le_trans ?_ hi
    rw [perform_document]
    exact Document.le_put _ _ _ _

theorem op?_performAll {i p} (h : (r.performAll identities ws).document.op? i = some p) :
    r.document.op? i = some p ∨
      (i.actor = r.actor ∧ ∃ w ∈ ws, p.key = w.field.key ∧
        ∃ n, p.value = reference w.referent (identities n)) := by
  induction ws generalizing r identities
  case nil => exact .inl h
  case cons w ws hi =>
    rcases hi h with h | ⟨ha, w', hw', hk, n, hv⟩
    · rw [perform_document] at h
      rcases Document.op?_put h with h | ⟨rfl, hk, hv⟩
      · exact .inl h
      · exact .inr ⟨rfl, w, by simp, hk, 0, hv⟩
    · exact .inr ⟨by simpa using ha, w', by simp [hw'], hk, n + 1, hv⟩

theorem agrees_performAll (h : r.document.Agrees d)
    (hc : ∀ i p, d.op? i = some p → i.actor = r.actor → r.document.op? i = some p) :
    (r.performAll identities ws).document.Agrees d := by
  induction ws generalizing r identities
  case nil => exact h
  case cons w ws hi =>
    refine hi ?_ fun i p hp ha => ?_
    · rw [perform_document]
      exact h.put fun i p hp ha => ⟨p, hc i p hp ha⟩
    · rw [perform_document]
      exact Document.le_put _ _ _ _ _ _ (hc i p hp (by simpa using ha))

variable (r identities) in
theorem getAll_performAll_of_not_mem (h : ∀ w ∈ ws, w.field ≠ f) :
    (r.performAll identities ws).document.getAll f.key = r.document.getAll f.key := by
  induction ws generalizing r identities
  case nil => rfl
  case cons w ws hi =>
    have hk : f.key ≠ w.field.key :=
      fun hk => h w (by simp) (SyncFieldId.key_injective hk).symm
    rw [performAll, hi _ _ fun w' hw' => h w' (by simp [hw']), perform_document,
      Document.getAll_put_ne hk]

-- The last write to a register.
def lastOn (ws : List Write) (f : SyncFieldId) : Option Write :=
  (ws.filter (·.field = f)).getLast?

omit [Platform] in
theorem lastOn_eq_none {f} : lastOn ws f = none ↔ ∀ w ∈ ws, w.field ≠ f := by
  simp [lastOn]

omit [Platform] in
theorem lastOn_mem {f w} (h : lastOn ws f = some w) : w ∈ ws ∧ w.field = f := by
  have hm := List.mem_of_getLast? h
  simpa using List.mem_filter.mp hm

omit [Platform] in
theorem lastOn_eq_some {f w} (hm : w ∈ ws) (hf : w.field = f)
    (hu : ∀ w' ∈ ws, w'.field = f → w' = w) : lastOn ws f = some w := by
  cases hl : lastOn ws f
  case none => exact absurd hf (lastOn_eq_none.mp hl w hm)
  case some w' => rw [hu w' (lastOn_mem hl).1 (lastOn_mem hl).2]

omit [Platform] in
theorem lastOn_append (us ws : List Write) (f) :
    lastOn (us ++ ws) f = (lastOn ws f).or (lastOn us f) := by
  simp [lastOn]

variable (r identities) in
theorem getAll_performAll {f w} (h : lastOn ws f = some w) :
    ∃ i n, (r.performAll identities ws).document.getAll f.key =
      [(reference w.referent (identities n), i)] := by
  induction ws generalizing r identities
  case nil => simp [lastOn] at h
  case cons w' ws hi =>
    cases hl : lastOn ws f
    case some w'' =>
      have hw : w'' = w := by
        have := lastOn_append [w'] ws f
        simp_all
      have ⟨i, n, hg⟩ := hi (r.perform w' (identities 0)) (fun n => identities (n + 1)) (hw ▸ hl)
      exact ⟨i, n + 1, hg⟩
    case none =>
      have hw : lastOn [w'] f = some w := by
        have := lastOn_append [w'] ws f
        simp_all
      have ⟨hm, hf⟩ := lastOn_mem hw
      cases List.mem_singleton.mp hm
      rw [performAll, getAll_performAll_of_not_mem _ _ (lastOn_eq_none.mp hl), perform_document, hf]
      have ⟨i, hi⟩ := Document.getAll_put_self r.document r.actor f.key
        (reference w.referent (identities 0))
      exact ⟨i, 0, hi⟩

variable (r identities) in
theorem only_performAll {f w} (h : lastOn ws f = some w) :
    (r.performAll identities ws).Only f w.referent := by
  have ⟨i, n, hg⟩ := getAll_performAll r identities h
  have hv {j v} : (r.performAll identities ws).document.Visible f.key j v ↔
      v = reference w.referent (identities n) ∧ j = i := by
    rw [← Document.mem_getAll, hg]
    simp
  have hr := referent_reference (isReferent_write w) (identities n)
  constructor
  case holds => exact ⟨i, _, hv.mpr ⟨rfl, rfl⟩, hr⟩
  case unique =>
    rintro e ⟨j, v, hj, he⟩
    obtain ⟨rfl, rfl⟩ := hv.mp hj
    exact Option.some.inj (he.symm.trans hr)

omit [Platform] in
theorem holds_congr {s : SyncReplica} {f d} (h : s.document.getAll f.key = r.document.getAll f.key) :
    s.Holds f d ↔ r.Holds f d := by
  simp only [Holds, ← Document.mem_getAll, h]

omit [Platform] in
theorem written_congr {s : SyncReplica} {f} (h : s.document.getAll f.key = r.document.getAll f.key) :
    s.Written f ↔ r.Written f := by
  simp only [written_iff, ← Document.mem_getAll, h]

theorem written_performAll_of_mem {w} (h : w ∈ ws) :
    (r.performAll identities ws).Written w.field := by
  cases hl : lastOn ws w.field
  case none => exact absurd rfl (lastOn_eq_none.mp hl w h)
  case some w' => exact (only_performAll _ _ hl).holds.written

theorem mem_values_performAll {id : String} (h : id ∈ r.values) :
    id ∈ (r.performAll identities ws).values := by
  induction ws generalizing r identities
  case nil => exact h
  case cons w ws hi =>
    apply hi
    rw [ExtTreeMap.mem_iff_isSome_getElem?] at h ⊢
    rw [getElem?_perform]
    split
    · split <;> simp_all
    · exact h

theorem digest_mem_performAll {w v} (hw : w ∈ ws) (hv : w.value = some v) :
    digest v.bytes ∈ (r.performAll identities ws).values := by
  induction ws generalizing r identities
  case nil => simp at hw
  case cons w' ws hi =>
    rcases List.mem_cons.mp hw with rfl | hw
    · refine mem_values_performAll (r := r.perform w (identities 0)) ?_
      rw [ExtTreeMap.mem_iff_isSome_getElem?, getElem?_perform, hv]
      simp
    · exact hi hw

theorem values_performAll {id : String} {v}
    (h : (r.performAll identities ws).values[id]? = some v) :
    r.values[id]? = some v ∨ (digest v.bytes = id ∧ ∃ w ∈ ws, w.value = some v) := by
  induction ws generalizing r identities
  case nil => exact .inl h
  case cons w ws hi =>
    rcases hi h with h | ⟨hd, w', hw', hv⟩
    · rw [getElem?_perform] at h
      split at h
      case h_1 v' hv' =>
        split at h
        case isTrue hd =>
          cases h
          exact .inr ⟨hd, w, by simp, hv'⟩
        case isFalse => exact .inl h
      case h_2 => exact .inl h
    · exact .inr ⟨hd, w', by simp [hw'], hv⟩

-- All values of the replica are in a set.
def Stores (r : SyncReplica) (S : Set SyncValue) : Prop :=
  ∀ (id : String) v, r.values[id]? = some v → v ∈ S

-- All values that are written are in a set.
def WritesIn (ws : List Write) (S : Set SyncValue) : Prop :=
  ∀ w ∈ ws, ∀ v, w.value = some v → v ∈ S

section Values

variable (hS : Collisionless S) (hr : r.Stores S) (hw : WritesIn ws S)

include hr hw in
theorem Stores.performAll : (r.performAll identities ws).Stores S := by
  intro id v hv
  rcases values_performAll hv with hv | ⟨_, w, hm, hv⟩
  · exact hr id v hv
  · exact hw w hm v hv

variable (hd : r.Digested)

include hd in
theorem Digested.performAll : (r.performAll identities ws).Digested := by
  intro id v hv
  rcases values_performAll hv with hv | ⟨h, _⟩
  · exact hd id v hv
  · exact h

include hS hr hw hd

-- Without collisions a digest that is held stands for the value it was computed from.
theorem getElem?_digest_performAll {v} (hv : v ∈ S)
    (hm : digest v.bytes ∈ (r.performAll identities ws).values) :
    (r.performAll identities ws).values[digest v.bytes]? = some v := by
  have ⟨w, hw'⟩ := mem_iff_getElem?_eq_some.mp hm
  rw [hw', hS w (hr.performAll hw _ w hw') v hv (hd.performAll _ w hw')]

theorem getElem?_performAll_of_held {id : String} {v} (hv : r.values[id]? = some v) :
    (r.performAll identities ws).values[id]? = some v := by
  have hm : id ∈ r.values := mem_iff_getElem?_eq_some.mpr ⟨v, hv⟩
  cases hd id v hv
  exact getElem?_digest_performAll hS hr hw hd (hr _ v hv) (mem_values_performAll hm)

theorem getElem?_performAll_of_mem {w v} (hm : w ∈ ws) (hv : w.value = some v) :
    (r.performAll identities ws).values[digest v.bytes]? = some v :=
  getElem?_digest_performAll hS hr hw hd (hw w hm v hv) (digest_mem_performAll hm hv)

end Values

-- Writes that keep a replica valid: the fields have identities, the presence register of each
-- resource that is written is written too or was before, and it ends with a boolean.
structure Sound (r : SyncReplica) (ws : List Write) : Prop where
  fields : ∀ w ∈ ws, w.field.Valid
  booleans : ∀ ρ w, lastOn ws (.presence ρ) = some w → ∃ b, w.value = some (.bool b)
  presences : ∀ w ∈ ws, ¬r.skips (.presence w.field.resource) →
    (∃ w', lastOn ws (.presence w.field.resource) = some w') ∨
      r.Written (.presence w.field.resource)

theorem readable_performAll (hr : r.Readable) (hf : ∀ w ∈ ws, w.field.Valid) :
    (r.performAll identities ws).Readable where
  keys k hk := by
    have ⟨i, p, hp, hpk⟩ := Document.mem_keys.mp hk
    rcases op?_performAll hp with hp | ⟨_, w, hw, hpw, _⟩
    · exact hr.keys k (Document.mem_keys.mpr ⟨i, p, hp, hpk⟩)
    · exact ⟨w.field, hf w hw, hpw.symm.trans hpk⟩
  fields f _ i v hv := by
    cases hl : lastOn ws f
    case some w =>
      have ⟨j, n, hg⟩ := getAll_performAll r identities hl
      rw [← Document.mem_getAll, hg] at hv
      obtain ⟨rfl, rfl⟩ : v = reference w.referent (identities n) ∧ i = j := by simpa using hv
      refine ⟨w.referent, referent_reference (isReferent_write w) _, ?_⟩
      unfold Resolves Write.referent
      cases hv : w.value
      case none => exact .inl rfl
      case some v => exact .inr (.inl (digest_mem_performAll (lastOn_mem hl).1 hv))
    case none =>
      have hg := getAll_performAll_of_not_mem r identities (lastOn_eq_none.mp hl)
      rw [← Document.mem_getAll, hg, Document.mem_getAll] at hv
      have ⟨d, hd, hs⟩ := hr.fields f (written_iff.mpr ⟨i, v, hv⟩) i v hv
      refine ⟨d, hd, ?_⟩
      rcases hs with hs | hs | hs
      · exact .inl hs
      · exact .inr (.inl (mem_values_performAll hs))
      · exact .inr (.inr (by rwa [skips_performAll]))

theorem Valid.performAll {S : Set SyncValue} (hr : r.Valid) (hS : Collisionless S)
    (hs : r.Stores S) (hw : WritesIn ws S) (h : r.Sound ws) :
    (r.performAll identities ws).Valid where
  digests := hr.digests.performAll
  readable := readable_performAll hr.readable h.fields
  presences f hf hsk := by
    rw [skips_performAll] at hsk
    cases hl : lastOn ws (.presence f.resource)
    case some w =>
      have ho := only_performAll r identities hl
      refine ⟨ho.holds.written, fun d hd => ?_⟩
      have ⟨b, hb⟩ := h.booleans _ w hl
      rw [ho.unique d hd]
      refine ⟨b, ?_⟩
      simpa [Write.referent, hb] using
        getElem?_performAll_of_mem hS hs hw hr.digests (lastOn_mem hl).1 hb
    case none =>
      have hg := getAll_performAll_of_not_mem r identities (lastOn_eq_none.mp hl)
      have hp : r.Written (.presence f.resource) := by
        by_cases hm : ∃ w ∈ ws, w.field = f
        case pos =>
          have ⟨w, hwm, hwf⟩ := hm
          subst hwf
          rcases h.presences w hwm hsk with ⟨w', hw'⟩ | hp
          · simp [hl] at hw'
          · exact hp
        case neg =>
          have hn := getAll_performAll_of_not_mem r identities
            (f := f) fun w hw hf => hm ⟨w, hw, hf⟩
          exact (hr.presences f ((written_congr hn).mp hf) hsk).written
      have hpv := hr.presences _ hp hsk
      refine ⟨(written_congr hg).mpr hp, fun d hd => ?_⟩
      have ⟨b, hb⟩ := hpv.booleans d ((holds_congr hg).mp hd)
      exact ⟨b, getElem?_performAll_of_held hS hs hw hr.digests hb⟩

end PerformAll

end SyncReplica
end NyaTerm

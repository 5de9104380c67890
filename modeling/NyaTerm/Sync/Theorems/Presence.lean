import NyaTerm.Sync.Theorems.Convergence

open Std Causal

namespace NyaTerm

open SyncFieldId

open SyncReplica

variable [Platform]

-- The identities that a call draws do not occur in the replica.
def SyncReplica.Fresh (r : SyncReplica) (identities : Nat → Uuid) : Prop :=
  ∀ n i p d, r.document.op? i = some p → p.value ≠ reference d (identities n)

-- What a device sees of a resource when it captures: that it is gone, or that it was edited.
inductive SyncReplica.Sees (r : SyncReplica) (baseline : SyncValues) (current : SyncProjection)
    (scope : SyncScope) (ρ : SyncResourceId) : Bool → Prop
  | deletion (h : r.Deletes baseline current scope ρ) : Sees r baseline current scope ρ false
  | edit {f} (h : r.Edits baseline current scope f) (hf : f.resource = ρ) :
    Sees r baseline current scope ρ true

omit [Platform] in
theorem SyncReplica.Captured.sees {r : SyncReplica} {baseline current scope ws}
    (h : r.Captured baseline current scope ws) {ρ b} (hs : r.Sees baseline current scope ρ b) :
    lastOn ws (.presence ρ) = some ⟨.presence ρ, some (.bool b)⟩ := by
  cases hs
  case deletion hd => exact h.deletes ρ hd
  case edit f he hf => exact hf ▸ h.presents f he

variable {w : World}

namespace World

-- A device of the world captures that a resource is gone, or an edit of it. This leaves one write
-- behind in the presence register of the resource.
structure Marks (S : Set SyncValue) (w : World) (ρ : SyncResourceId) (b : Bool)
    (r r' : SyncReplica) (i : OpId Uuid) : Prop where
  mem : r ∈ w
  leads : Leads w r
  capture : ∃ (baseline : SyncValues) (current : SyncProjection) (scope : SyncScope)
    (identities : Nat → Uuid) (x : Bool),
    (∀ (k : String) v, current.values[k]? = some v → v ∈ S) ∧ r.Fresh identities ∧
      r.Sees baseline current scope ρ b ∧
      r.capture baseline current scope identities = (.ok x, r')
  shown : ∃ v, r'.document.getAll (SyncFieldId.presence ρ).key = [(v, i)]

-- No replica that has seen one of the operations writes to the register again.
def Quiet (I : Set (OpId Uuid)) (k : String) (w : World) (r : SyncReplica) : Prop :=
  ∀ j p, r.document.op? j = some p → p.key = k →
    (∃ q ∈ w, q.document.op? j = some p) ∨ ∀ i ∈ I, r.document.op? i = none

inductive QuietSteps (S : Set SyncValue) (I : Set (OpId Uuid)) (k : String) (w : World) :
    World → Prop
  | refl : QuietSteps S I k w w
  | step {w' r} (hs : QuietSteps S I k w w') (h : Step S w' r) (hq : Quiet I k w' r) :
    QuietSteps S I k w (r :: w')

theorem Within.quiet (h : Within S w r) : Quiet I k w r :=
  fun j p hp _ => .inl (h.held j p hp)

-- An operation of the world that no replica of it has overwritten.
structure Standing (w : World) (k : String) (i : OpId Uuid) (v : ScalarValue) : Prop where
  held : ∃ q ∈ w, ∃ p, q.document.op? i = some p ∧ p.key = k ∧ p.value = v
  current : ∀ q ∈ w, ¬q.document.Overwritten i

section Standing

theorem Standing.visible (hw : Coherent S w) (h : Standing w k i v) {q} (hq : q ∈ w) {p}
    (hp : q.document.op? i = some p) : q.document.Visible k i v := by
  have ⟨x, hx, p', hp', hk, hv⟩ := h.held
  cases hw.agrees q hq x hx i p p' hp hp'
  exact ⟨⟨p, hp, hk, hv⟩, h.current q hq⟩

omit [Platform] in
theorem Standing.cons (h : Standing w k i v) {r : SyncReplica} (hr : ¬r.document.Overwritten i) :
    Standing (r :: w) k i v where
  held := by
    have ⟨q, hq, hp⟩ := h.held
    exact ⟨q, by simp [hq], hp⟩
  current q hq := by
    rcases List.mem_cons.mp hq with rfl | hq
    · exact hr
    · exact h.current q hq

-- An operation is overwritten by a write to its own register, by a replica that has seen it.
theorem Standing.step (h : Standing w k i v) {r} (hw : Coherent S (r :: w)) {I}
    (hq : Quiet I k w r) (hi : i ∈ I) : Standing (r :: w) k i v := by
  refine h.cons ?_
  rintro ⟨j, p, hp, hj⟩
  have ⟨p', hp', hk', _⟩ := Document.pred_held hp hj
  have ⟨x, hx, px, hpx, hk, _⟩ := h.held
  cases hw.agrees r (by simp) x (by simp [hx]) i p' px hp' hpx
  rcases hq j p hp (hk' ▸ hk) with ⟨q, hq, hpq⟩ | hn
  · exact h.current q hq ⟨j, p, hpq, hj⟩
  · simp [hn i hi] at hp'

variable (hS : Collisionless S) (hb : ∀ b, SyncValue.bool b ∈ S)
include hS hb

theorem Coherent.quietSteps {I w'} (h : Coherent S w) (hs : QuietSteps S I k w w') :
    Coherent S w' := by
  induction hs
  case refl => exact h
  case step hs _ hi => exact hi.step hS hb hs

theorem Standing.steps {I w'} (h : Standing w k i v) (hw : Coherent S w)
    (hs : QuietSteps S I k w w') (hi : i ∈ I) : Standing w' k i v := by
  induction hs
  case refl => exact h
  case step hs' hs hq hi' =>
    exact hi'.step ((hw.quietSteps hS hb hs').step hS hb hs) hq hi

end Standing

section Marks

variable {r' : SyncReplica}
  (h : Marks S w ρ b r r' i)
include h

theorem Marks.step : Step S w r' := by
  have ⟨baseline, current, scope, identities, x, hc, _, _, hr⟩ := h.capture
  have hs := Step.capture h.mem h.leads baseline hc scope identities
  rwa [hr] at hs

theorem Marks.written : ∃ identities ws n, r' = r.performAll identities ws ∧ r.Fresh identities ∧
    r'.document.getAll (presence ρ).key =
      [(reference (digest (SyncValue.bool b).bytes) (identities n), i)] := by
  have ⟨baseline, current, scope, identities, x, _, hf, hs, hr⟩ := h.capture
  have ⟨v, hv⟩ := h.shown
  obtain ⟨ws, rfl, hw⟩ := capture_ok hr
  have ⟨j, n, hg⟩ := getAll_performAll r identities (hw.sees hs)
  rw [hv] at hg
  cases hg
  exact ⟨identities, ws, n, rfl, hf, hv⟩

theorem Marks.visible : ∃ v, r'.document.Visible (presence ρ).key i v ∧
    v.referent = some (digest (SyncValue.bool b).bytes) := by
  have ⟨identities, _, n, _, _, hg⟩ := h.written
  refine ⟨_, Document.mem_getAll.mp (hg ▸ List.mem_singleton.mpr rfl), ?_⟩
  exact referent_reference (isReferent_digest _) _

theorem Marks.held : ∃ p, r'.document.op? i = some p := by
  have ⟨_, hv, _⟩ := h.visible
  have ⟨p, hp, _⟩ := hv.held
  exact ⟨p, hp⟩

theorem Marks.only : r'.Only (.presence ρ) (digest (SyncValue.bool b).bytes) := by
  have ⟨_, current, _, _, _, _, _, hs, hr⟩ := h.capture
  obtain ⟨ws, rfl, hw⟩ := capture_ok hr
  exact only_performAll _ _ (hw.sees hs)

theorem Marks.fresh {q} (hq : q ∈ w) : q.document.op? i = none := by
  obtain ⟨identities, ws, n, rfl, hf, hg⟩ := h.written
  have ⟨p, hp, hk, hv⟩ := (Document.mem_getAll.mp (hg ▸ List.mem_singleton.mpr rfl)).held
  have hr : r.document.op? i = none := by
    cases hi : r.document.op? i
    case none => rfl
    case some p' =>
      cases Option.some.inj ((le_performAll _ _ hi).symm.trans hp)
      exact absurd hv (hf n i p _ hi)
  rcases op?_performAll hp with hp | ⟨ha, _⟩
  · simp [hr] at hp
  · cases hi : q.document.op? i
    case none => rfl
    case some p' => simp [h.leads q hq i p' hi ha] at hr

theorem Marks.actor : i.actor = r.actor := by
  have ⟨p, hp⟩ := h.held
  obtain ⟨_, _, _, rfl, _⟩ := h.written
  rcases op?_performAll hp with hp | ⟨ha, _⟩
  · simp [h.fresh h.mem] at hp
  · exact ha

-- So it stands at first, and what stood before still does unless the device had seen it.
theorem Marks.standing : ∃ v, Standing (r' :: w) (presence ρ).key i v ∧
    v.referent = some (digest (SyncValue.bool b).bytes) := by
  have ⟨v, hv, hr⟩ := h.visible
  refine ⟨v, ⟨⟨r', by simp, hv.held⟩, fun q hq ho => ?_⟩, hr⟩
  rcases List.mem_cons.mp hq with rfl | hq
  · exact hv.current ho
  · have ⟨p, hp⟩ := ho.held
    simp [h.fresh hq] at hp

theorem Marks.standing_other {k j v} (hj : Standing w k j v) (hn : r.document.op? j = none) :
    Standing (r' :: w) k j v := by
  refine hj.cons fun ho => ?_
  obtain ⟨_, ws, _, rfl, _, _⟩ := h.written
  have ⟨p, hp⟩ := ho.held
  rcases op?_performAll hp with hp | ⟨ha, _⟩
  · simp [hn] at hp
  · have ⟨q, hq, p', hp', _⟩ := hj.held
    simp [h.leads q hq j p' hp' ha] at hn

end Marks

end World

-- Deletion against edit is not decided silently: as long as no replica that has seen one of the two
-- writes to the presence register again, every replica that has both reports the conflict and
-- leaves the local fields of the resource alone.
theorem World.delete_edit_conflict {S : Set SyncValue} (hS : Collisionless S)
    (hb : ∀ b, SyncValue.bool b ∈ S) {w₀ w₁ w₂ : World} (hw : w₀.Reachable S) {ρ : SyncResourceId}
    {b : Bool} {r₁ r₁' : SyncReplica} {i₁ : OpId Uuid} (h₁ : w₀.Marks S ρ b r₁ r₁' i₁)
    (hq₁ : QuietSteps S {i₁} (SyncFieldId.presence ρ).key (r₁' :: w₀) w₁)
    {r₂ r₂' : SyncReplica} {i₂ : OpId Uuid} (h₂ : w₁.Marks S ρ (!b) r₂ r₂' i₂)
    (hn : r₂.document.op? i₁ = none)
    (hq₂ : QuietSteps S {i₁, i₂} (SyncFieldId.presence ρ).key (r₂' :: w₁) w₂)
    {q : SyncReplica} (hq : q ∈ w₂) {p₁ p₂} (hp₁ : q.document.op? i₁ = some p₁)
    (hp₂ : q.document.op? i₂ = some p₂) :
    (¬q.skips (.presence ρ) → ∃ cs c, q.conflicts = .ok cs ∧ c ∈ cs ∧ c.field = .presence ρ) ∧
    ∀ l scope, ∃ m, q.materialize l scope = .ok m ∧
      ∀ f : SyncFieldId, f.resource = ρ → m[f.key]? = l[f.key]? := by
  have hw₁ := (hw.coherent hS hb).step hS hb h₁.step
  have hw₂ := (hw₁.quietSteps hS hb hq₁).step hS hb h₂.step
  have hw₃ := hw₂.quietSteps hS hb hq₂
  have ⟨v₁, hs₁, hr₁⟩ := h₁.standing
  obtain ⟨v₂, hs₂, hr₂⟩ := h₂.standing
  have hs₁ := h₂.standing_other (hs₁.steps hS hb hw₁ hq₁ rfl) hn
  have hs₁ := hs₁.steps hS hb hw₂ hq₂ (.inl rfl)
  have hs₂ := hs₂.steps hS hb hw₂ hq₂ (.inr rfl)
  have hd : q.Disputed (.presence ρ) := by
    refine ⟨_, _, ⟨i₁, v₁, hs₁.visible hw₃ hq hp₁, hr₁⟩, ⟨i₂, v₂, hs₂.visible hw₃ hq hp₂, hr₂⟩, ?_⟩
    intro he
    have := digest_bool he
    simp at this
  have hc := (hw₃.valid q hq).consistent
  refine ⟨fun hs => ?_, fun l scope => ?_⟩
  · have ⟨cs, hcs⟩ := exists_conflicts.mpr hc
    have ⟨c, hr, hf⟩ := exists_reported_presence hc.readable hs hd
    exact ⟨cs, c, hcs, (mem_conflicts hcs).mpr hr, hf⟩
  · have ⟨m, hm⟩ := exists_materialize hc l scope
    refine ⟨m, hm, ?_⟩
    rintro f rfl
    exact (materialize_eq_ok.mp hm).2.disputed hd

-- Operations of which the author and the identity of the write are known.
def SyncReplica.Traced (r : SyncReplica) (T : Uuid → Uuid → Prop) : Prop :=
  ∀ i p, r.document.op? i = some p → ∃ d u, p.value = reference d u ∧ T i.actor u

namespace SyncReplica

variable {r : SyncReplica}

theorem Traced.capture (h : r.Traced T) (baseline current scope) (u : Uuid) :
    (r.capture baseline current scope fun _ => u).2.Traced
      fun a v => T a v ∨ (a = r.actor ∧ v = u) := by
  intro i p hp
  have ⟨ws, he, _⟩ := capture_writes r baseline current scope fun _ => u
  rw [he] at hp
  rcases op?_performAll hp with hp | ⟨ha, w, _, _, n, hv⟩
  · have ⟨d, v, hv, ht⟩ := h i p hp
    exact ⟨d, v, hv, .inl ht⟩
  · exact ⟨_, u, hv, .inr ⟨ha, rfl⟩⟩

omit [Platform]

theorem Traced.withActor (h : r.Traced T) (a : Uuid) :
    ({ r with actor := a } : SyncReplica).Traced T := h

theorem Traced.mono (h : r.Traced T) (ht : ∀ a u, T a u → T' a u) : r.Traced T' := by
  intro i p hp
  have ⟨d, u, hv, hu⟩ := h i p hp
  exact ⟨d, u, hv, ht _ _ hu⟩

theorem traced_new (a : Uuid) : (new a).Traced fun _ _ => False := by
  intro i p hp
  simp [new] at hp

theorem Traced.actor_ne (h : r.Traced T) (hn : ∀ u, ¬T a u) (i p) (hp : r.document.op? i = some p) :
    i.actor ≠ a := by
  rintro rfl
  have ⟨_, u, _, hu⟩ := h i p hp
  exact hn u hu

theorem leads_of_traced
    (h : ∀ q ∈ w, q = r ∨ ∃ T, q.Traced T ∧ ∀ u, ¬T r.actor u) : w.Leads r := by
  intro q hq i p hp ha
  rcases h q hq with rfl | ⟨T, ht, hn⟩
  · exact hp
  · exact absurd ha (ht.actor_ne hn i p hp)

theorem Traced.fresh (h : r.Traced T) (hn : ∀ a, ¬T a u) : r.Fresh fun _ => u := by
  intro _ i p d hp hv
  have ⟨e, v, hv', ht⟩ := h i p hp
  obtain ⟨_, rfl⟩ := reference_injective (hv'.symm.trans hv)
  exact hn _ ht

end SyncReplica

theorem World.exists_marks {ρ b r} (hr : r ∈ w) (ha : Leads w r)
    {baseline : SyncValues} {current : SyncProjection}
    (hc : ∀ (k : String) v, current.values[k]? = some v → v ∈ S) {scope identities}
    (hf : r.Fresh identities) (hs : r.Sees baseline current scope ρ b)
    (hk : ∀ k, k ∈ baseline ∨ k ∈ current.values → ∃ f, fromKey k = some f) :
    ∃ i, Marks S w ρ b r (r.capture baseline current scope identities).2 i := by
  have ⟨x, r', h⟩ := exists_capture_ok r scope identities hk
  have ⟨ws, he, hw⟩ := capture_ok h
  have ⟨i, n, hg⟩ := getAll_performAll r identities (hw.sees hs)
  rw [h]
  exact ⟨i, hr, ha, ⟨baseline, current, scope, identities, x, hc, hf, hs, h⟩, _, he ▸ hg⟩

theorem World.exists_merged (hS : Collisionless S)
    (hw : Coherent S w) {r q} (hr : r ∈ w) (hq : q ∈ w) :
    ∃ x, r.merge q.snapshot = (.ok (), x) ∧ Step S w x ∧ Within S w x ∧ ∃ h, x = r.join q h := by
  have ha := hw.agrees r hr q hq
  have hm := merge_snapshot (hw.valid r hr) (hw.valid q hq)
    ((hw.within hr).compatible hS (hw.within hq)) ha
  have hs : Step S w (r.merge q.snapshot).2 := .merge hr (.snapshot hq)
  rw [hm] at hs
  exact ⟨_, hm, hs, (hw.within hr).join hS (hw.within hq) ha, ha, rfl⟩

section Clash

variable {f : SyncFieldId}

-- The states of a device that has a resource, with one of its fields or without.
def SyncFieldId.bare (f : SyncFieldId) : SyncProjection where
  values := (∅ : SyncValues).insert (SyncFieldId.presence f.resource).key (.bool true)
  complete := (∅ : BTreeSet String).insert f.resource.kind

def SyncFieldId.full (f : SyncFieldId) : SyncProjection :=
  { f.bare with values := f.bare.values.insert f.key (.bool true) }

def SyncFieldId.gone (f : SyncFieldId) : SyncProjection :=
  { f.bare with values := ∅ }

omit [Platform] in
theorem SyncFieldId.getElem?_bare {k v} : f.bare.values[k]? = some v ↔
    k = (presence f.resource).key ∧ v = .bool true := by
  simp only [bare, ExtTreeMap.getElem?_insert, Std.compare_eq_iff_eq]
  grind

omit [Platform] in
theorem SyncFieldId.getElem?_full {k v} : f.full.values[k]? = some v ↔
    (k = (presence f.resource).key ∨ k = f.key) ∧ v = .bool true := by
  simp only [full, bare, ExtTreeMap.getElem?_insert, Std.compare_eq_iff_eq]
  grind

omit [Platform] in
theorem SyncFieldId.mem_bare {k} :
    k ∈ f.bare.values ↔ k = (presence f.resource).key := by
  simp [mem_iff_getElem?_eq_some, getElem?_bare]

omit [Platform] in
theorem SyncFieldId.mem_full {k} :
    k ∈ f.full.values ↔ k = (presence f.resource).key ∨ k = f.key := by
  simp [mem_iff_getElem?_eq_some, getElem?_full]

namespace SyncReplica

variable (r : SyncReplica) (hv : f.Valid) (hf : fixedCloudSyncField f)
include hv hf

omit [Platform] hv in
theorem admits_of_core : r.Admits {} f := by
  have hf' := hf
  simp only [fixedCloudSyncField, Bool.and_eq_true] at hf'
  exact ⟨includes_of_core {} hf'.1, not_skips_of_core hf, hf'.2⟩

omit [Platform]

theorem sees_created : r.Sees ∅ f.bare {} f.resource true := by
  have hm := mem_bare (f := f).mpr rfl
  refine .edit (f := .presence f.resource) ⟨hv.presence, .inr hm,
    r.admits_of_core (fixedCloudSyncField_presence hf), .inr hm, fun h => ?_, .inl ?_⟩ rfl
  · simpa using h.known
  · rw [getElem?_bare.mpr ⟨rfl, rfl⟩]
    simp

theorem sees_deleted : r.Sees f.bare.values f.gone {} f.resource false := by
  refine .deletion ⟨hv.presence, r.admits_of_core (fixedCloudSyncField_presence hf), ?_,
    mem_bare.mpr rfl, ?_⟩
  · simp [gone, bare]
  · simp [gone]

theorem sees_edited (hn : f ≠ .presence f.resource) :
    r.Sees f.bare.values f.full {} f.resource true := by
  have hm := mem_full (f := f).mpr (.inr rfl)
  refine .edit ⟨hv, .inr hm, r.admits_of_core hf, .inr hm, fun h => ?_, .inl ?_⟩ rfl
  · exact h.absent (mem_full.mpr (.inl rfl))
  · rw [getElem?_full.mpr ⟨.inr rfl, rfl⟩]
    intro h
    exact hn (SyncFieldId.key_injective (getElem?_bare.mp h).1)

end SyncReplica

-- One device creates a resource and deletes it, another one has loaded it and edits it. A third
-- device takes over the deletion and creates the resource again.
namespace Clash

def created (f : SyncFieldId) : SyncReplica :=
  ((new 1).capture ∅ f.bare {} fun _ => 1).2

def deleted (f : SyncFieldId) : SyncReplica :=
  ((created f).capture f.bare.values f.gone {} fun _ => 2).2

def loaded (f : SyncFieldId) : SyncReplica :=
  { created f with actor := 2 }

def edited (f : SyncFieldId) : SyncReplica :=
  ((loaded f).capture f.bare.values f.full {} fun _ => 3).2

def taken (f : SyncFieldId) : SyncReplica :=
  { deleted f with actor := 3 }

def recreated (f : SyncFieldId) : SyncReplica :=
  ((taken f).capture ∅ f.bare {} fun _ => 4).2

omit [Platform] in
theorem exists_field : ∃ f : SyncFieldId, f.Valid ∧ fixedCloudSyncField f ∧
    f ≠ .presence f.resource ∧ f.resource.kind ≠ "preference" :=
  ⟨⟨⟨"connection", "c1"⟩, "name"⟩, by constructor <;> simp, by decide, by decide, by decide⟩

theorem actor_created : (created f).actor = 1 := by
  unfold created
  rw [capture_actor]
  rfl

theorem traced_created : (created f).Traced fun a u => a = 1 ∧ u = 1 := by
  refine ((traced_new 1).capture ∅ f.bare {} 1).mono fun a u ht => ?_
  exact ht.resolve_left id

theorem traced_deleted : (deleted f).Traced fun a u => a = 1 ∧ (u = 1 ∨ u = 2) := by
  refine (traced_created.capture f.bare.values f.gone {} 2).mono fun a u ht => ?_
  rw [actor_created] at ht
  rcases ht with ⟨ha, hu⟩ | ⟨ha, hu⟩
  · exact ⟨ha, .inl hu⟩
  · exact ⟨ha, .inr hu⟩

theorem traced_loaded : (loaded f).Traced fun a u => a = 1 ∧ u = 1 := by
  exact traced_created.withActor 2

theorem traced_edited : (edited f).Traced fun a u => (a = 1 ∧ u = 1) ∨ (a = 2 ∧ u = 3) := by
  exact traced_loaded.capture f.bare.values f.full {} 3

theorem actor_loaded : (loaded f).actor = 2 := by
  simp only [loaded]

theorem actor_taken : (taken f).actor = 3 := by
  simp only [taken]

theorem traced_recreated : (recreated f).Traced
    fun a u => (a = 1 ∧ (u = 1 ∨ u = 2)) ∨ (a = 3 ∧ u = 4) := by
  have ht : (taken f).Traced fun a u => a = 1 ∧ (u = 1 ∨ u = 2) := by
    exact traced_deleted.withActor 3
  refine (ht.capture ∅ f.bare {} 4).mono fun a u ht => ?_
  rwa [actor_taken] at ht

theorem le_recreated : (taken f).document ≤ (recreated f).document := by
  unfold recreated
  exact le_capture _ _ _ _ _

-- Everything that is captured here has the form of a state above.
omit [Platform] in
theorem values_booleans (h : current = f.bare ∨ current = f.gone ∨ current = f.full) (k : String)
    (v) (hk : current.values[k]? = some v) : v ∈ booleans := by
  rcases h with rfl | rfl | rfl
  · exact ⟨true, (getElem?_bare.mp hk).2⟩
  · simp [gone] at hk
  · exact ⟨true, (getElem?_full.mp hk).2⟩

theorem coherent (h : w.Reachable booleans) : World.Coherent booleans w :=
  h.coherent collisionless_booleans fun b => ⟨b, rfl⟩

theorem reachable_created : World.Reachable booleans [created f, new 1] := by
  have hl : World.Leads [new 1] (new 1) := by simp [World.Leads, new]
  have hc := values_booleans (f := f) (.inl rfl)
  exact World.Reachable.step (.step .empty (.new 1)) (.capture (by simp) hl ∅ hc {} fun _ => 1)

theorem leads_created : World.Leads [created f, new 1] (created f) := by
  refine leads_of_traced ?_
  simp only [List.forall_mem_cons, List.not_mem_nil, false_imp_iff, implies_true, and_true]
  exact ⟨.inl trivial, .inr ⟨_, traced_new 1, by simp⟩⟩

theorem op?_loaded {i} : (loaded f).document.op? i = (created f).document.op? i := by
  simp only [loaded]

theorem op?_taken {i} : (taken f).document.op? i = (deleted f).document.op? i := by
  simp only [taken]

theorem step_loaded : World.Step booleans [deleted f, created f, new 1] (loaded f) := by
  have hl : load (created f).snapshot 2 = .ok (loaded f) := by
    exact load_snapshot ((coherent (reachable_created (f := f))).valid (created f) (by simp)) 2
  exact .load (.snapshot (by simp)) hl

theorem leads_loaded : World.Leads [loaded f, deleted f, created f, new 1] (loaded f) := by
  refine leads_of_traced ?_
  rw [actor_loaded]
  simp only [List.forall_mem_cons, List.not_mem_nil, false_imp_iff, implies_true, and_true]
  exact ⟨.inl trivial, .inr ⟨_, traced_deleted, by simp⟩, .inr ⟨_, traced_created, by simp⟩,
    .inr ⟨_, traced_new 1, by simp⟩⟩

variable (hv : f.Valid) (hf : fixedCloudSyncField f)
include hv

omit [Platform] in
theorem keys_parse {k} (hk : k = (presence f.resource).key ∨ k = f.key) :
    ∃ g, fromKey k = some g := by
  rcases hk with rfl | rfl
  · exact ⟨_, fromKey_key hv.presence⟩
  · exact ⟨_, fromKey_key hv⟩

include hf

theorem marks_deleted : ∃ i, World.Marks booleans [created f, new 1] f.resource false (created f)
    (deleted f) i := by
  refine World.exists_marks (by simp) leads_created (values_booleans (.inr (.inl rfl)))
    (traced_created.fresh ?_) ((created f).sees_deleted hv hf) ?_
  · rintro a ⟨_, hu⟩
    exact absurd hu (by decide)
  · simp only [gone, ExtTreeMap.not_mem_empty, or_false, mem_bare]
    exact fun k hk => keys_parse hv (.inl hk)

section

variable (hn : f ≠ .presence f.resource)
include hn

theorem marks_edited :
    ∃ i, World.Marks booleans [loaded f, deleted f, created f, new 1] f.resource true (loaded f)
      (edited f) i := by
  refine World.exists_marks (by simp) leads_loaded (values_booleans (.inr (.inr rfl)))
    (traced_loaded.fresh ?_) ((loaded f).sees_edited hv hf hn) ?_
  · rintro a ⟨_, hu⟩
    exact absurd hu (by decide)
  · simp only [mem_full, mem_bare]
    rintro k (hk | hk)
    · exact keys_parse hv (.inl hk)
    · exact keys_parse hv hk

theorem reachable_edited :
    World.Reachable booleans [edited f, loaded f, deleted f, created f, new 1] := by
  have ⟨_, h₁⟩ := marks_deleted hv hf
  have ⟨_, h₂⟩ := marks_edited hv hf hn
  exact ((reachable_created.step h₁.step).step step_loaded).step h₂.step

theorem step_taken :
    World.Step booleans [edited f, loaded f, deleted f, created f, new 1] (taken f) := by
  have hl : load (deleted f).snapshot 3 = .ok (taken f) := by
    exact load_snapshot ((coherent (reachable_edited hv hf hn)).valid (deleted f) (by simp)) 3
  exact .load (.snapshot (by simp)) hl

end

omit hv hf in
theorem leads_taken : World.Leads [taken f, edited f, loaded f, deleted f, created f, new 1]
    (taken f) := by
  refine leads_of_traced ?_
  rw [actor_taken]
  simp only [List.forall_mem_cons, List.not_mem_nil, false_imp_iff, implies_true, and_true]
  exact ⟨.inl trivial, .inr ⟨_, traced_edited, by simp⟩, .inr ⟨_, traced_loaded, by simp⟩,
    .inr ⟨_, traced_deleted, by simp⟩, .inr ⟨_, traced_created, by simp⟩,
    .inr ⟨_, traced_new 1, by simp⟩⟩

theorem marks_recreated : ∃ i, World.Marks booleans
    [taken f, edited f, loaded f, deleted f, created f, new 1] f.resource true (taken f)
      (recreated f) i := by
  refine World.exists_marks (by simp) leads_taken (values_booleans (.inl rfl))
    ((traced_deleted.withActor 3).fresh ?_) ((taken f).sees_created hv hf) ?_
  · rintro a ⟨_, hu⟩
    exact absurd hu (by decide)
  · simp only [ExtTreeMap.not_mem_empty, false_or, mem_bare]
    exact fun k hk => keys_parse hv (.inl hk)

theorem reachable_recreated (hn : f ≠ .presence f.resource) : World.Reachable booleans
    [recreated f, taken f, edited f, loaded f, deleted f, created f, new 1] := by
  have ⟨_, h⟩ := marks_recreated hv hf
  exact ((reachable_edited hv hf hn).step (step_taken hv hf hn)).step h.step

end Clash

end Clash

omit [Platform] in
theorem World.delete_edit_conflict_clash : ∃ (_ : Platform) (f : SyncFieldId) (q : SyncReplica),
    (Clash.deleted f).merge (Clash.edited f).snapshot = (.ok (), q) ∧
      ∃ cs c, q.conflicts = .ok cs ∧ c ∈ cs ∧ c.field = .presence f.resource := by
  obtain ⟨f, hv, hf, hn, -⟩ := Clash.exists_field
  generalize Platform.sample = platform
  have hw := Clash.coherent (Clash.reachable_edited hv hf hn)
  obtain ⟨i₁, h₁⟩ := Clash.marks_deleted hv hf
  obtain ⟨i₂, h₂⟩ := Clash.marks_edited hv hf hn
  obtain ⟨q, hm, hs, hq, h, hj⟩ := World.exists_merged collisionless_booleans hw
    (r := Clash.deleted f) (q := Clash.edited f) (by simp) (by simp)
  obtain ⟨p₁, hp₁⟩ := h₁.held
  obtain ⟨p₂, hp₂⟩ := h₂.held
  refine ⟨platform, f, q, hm, ?_⟩
  refine (World.delete_edit_conflict collisionless_booleans (fun b => ⟨b, rfl⟩)
    Clash.reachable_created h₁ (.step .refl Clash.step_loaded ?_) h₂ ?_ (.step .refl hs hq.quiet)
    (by simp) (hj ▸ op?_join.mpr (.inl hp₁)) (hj ▸ op?_join.mpr (.inr hp₂))).1 ?_
  · exact fun j p hp _ => .inl ⟨Clash.created f, by simp, Clash.op?_loaded ▸ hp⟩
  · rw [Clash.op?_loaded]
    exact h₁.fresh (by simp)
  · simp [not_skips_of_core (fixedCloudSyncField_presence hf)]

omit [Platform] in
-- A third device that has seen the deletion creates the resource again. Merged with the edit, which
-- it has not seen, this leaves nothing of the deletion to report.
theorem World.delete_edit_settled : ∃ (_ : Platform) (f : SyncFieldId) (i j : OpId Uuid)
    (q : SyncReplica), World.Marks booleans [Clash.created f, new 1] f.resource false
      (Clash.created f) (Clash.deleted f) i ∧
    World.Marks booleans [Clash.loaded f, Clash.deleted f, Clash.created f, new 1] f.resource true
      (Clash.loaded f) (Clash.edited f) j ∧ (Clash.loaded f).document.op? i = none ∧
    (Clash.recreated f).document.op? j = none ∧
    (Clash.recreated f).merge (Clash.edited f).snapshot = (.ok (), q) ∧
    (∃ p, q.document.op? i = some p) ∧ (∃ p, q.document.op? j = some p) ∧
    ∃ cs, q.conflicts = .ok cs ∧ ∀ c ∈ cs, c.field ≠ .presence f.resource := by
  obtain ⟨f, hv, hf, hn, -⟩ := Clash.exists_field
  generalize Platform.sample = platform
  have hw := Clash.coherent (Clash.reachable_recreated hv hf hn)
  obtain ⟨i, h₁⟩ := Clash.marks_deleted hv hf
  obtain ⟨j, h₂⟩ := Clash.marks_edited hv hf hn
  obtain ⟨k, h₃⟩ := Clash.marks_recreated hv hf
  obtain ⟨q, hm, _, hq, h, hj⟩ := World.exists_merged collisionless_booleans hw
    (r := Clash.recreated f) (q := Clash.edited f) (by simp) (by simp)
  have ⟨cs, hc⟩ := exists_conflicts.mpr hq.valid.consistent
  refine ⟨platform, f, i, j, q, h₁, h₂, ?_, ?_, hm, ?_, ?_, cs, hc, fun c hcs hcf => ?_⟩
  · rw [Clash.op?_loaded]
    exact h₁.fresh (by simp)
  · cases hr : (Clash.recreated f).document.op? j
    case none => rfl
    case some p =>
      have ⟨_, _, _, ha⟩ := Clash.traced_recreated j p hr
      rw [h₂.actor, Clash.actor_loaded] at ha
      exact absurd ha (by simp)
  · have ⟨p, hp⟩ := h₁.held
    rw [← Clash.op?_taken] at hp
    exact ⟨p, hj ▸ op?_join.mpr (.inl (Clash.le_recreated _ _ hp))⟩
  · have ⟨p, hp⟩ := h₂.held
    exact ⟨p, hj ▸ op?_join.mpr (.inr hp)⟩
  · -- Both sides show that the resource is present.
    have hu {d} (hd : q.Holds (.presence f.resource) d) :
        d = digest (SyncValue.bool true).bytes := by
      rcases (hj ▸ hd).of_join with hd | hd
      · exact h₃.only.unique d hd
      · exact h₂.only.unique d hd
    have ⟨d, e, hd, he, hne⟩ := hcf ▸ ((mem_conflicts hc).mp hcs).disputed
    exact hne ((hu hd).trans (hu he).symm)

end NyaTerm

import NyaTerm.Sync.Theorems.Prepare
import NyaTerm.Sync.Theorems.Presence

open List

open Std Causal

namespace NyaTerm

open SyncFieldId

open SyncReplica

variable [Platform]

namespace World

section Arrives

variable {r : SyncReplica}

-- A run from `w` to a world in which a replica holds everything that the run has added.
structure Arrives (S : Set SyncValue) (w w' : World) (r : SyncReplica) : Prop where
  reachable : Reachable S w'
  mem : r ∈ w'
  keeps : ∀ x ∈ w, x ∈ w'
  below : ∀ x ∈ w', x ∈ w ∨ x.document ≤ r.document

theorem Arrives.refl (hw : Reachable S w) (hr : r ∈ w) : Arrives S w w r :=
  ⟨hw, hr, fun _ h => h, fun _ h => .inl h⟩

theorem Arrives.step (hw : Reachable S w) (h : Step S w r) : Arrives S w (r :: w) r where
  reachable := hw.step h
  mem := by simp
  keeps x hx := by simp [hx]
  below x hx := by
    rcases mem_cons.mp hx with rfl | hx
    · exact .inr (Document.le_refl _)
    · exact .inl hx

theorem Arrives.trans (h : Arrives S w w₁ r) (h' : Arrives S w₁ w₂ q)
    (hl : r.document ≤ q.document) : Arrives S w w₂ q where
  reachable := h'.reachable
  mem := h'.mem
  keeps x hx := h'.keeps x (h.keeps x hx)
  below x hx := by
    rcases h'.below x hx with hx | hx
    · exact (h.below x hx).imp_right fun hx => Document.le_trans hx hl
    · exact .inr hx

theorem Sent.mono {s} (h : Sent w s) (hk : ∀ x ∈ w, x ∈ w₁) : Sent w₁ s := by
  cases h
  case snapshot hq => exact .snapshot (hk _ hq)
  case fixed hq hs => exact .fixed (hk _ hq) hs

omit [Platform] in
theorem leads_of_le (h : ∀ x ∈ w, x.document ≤ r.document) (a : Uuid) :
    Leads w { r with actor := a } :=
  fun x hx i p hp _ => h x hx i p hp

variable (hS : Collisionless S) (hb : ∀ b, SyncValue.bool b ∈ S) (hw : Reachable S w) (hr : r ∈ w)
include hS hb hw hr

theorem mergeAll_arrives {ss} (hs : ∀ s ∈ ss, Sent w s) :
    ∃ q w', r.mergeAll ss = .ok q ∧ Arrives S w w' q ∧ r.document ≤ q.document := by
  induction ss generalizing r w
  case nil => exact ⟨r, w, rfl, .refl hw hr, Document.le_refl _⟩
  case cons s ss hi =>
    simp only [forall_mem_cons] at hs
    have hc := hw.coherent hS hb
    have ⟨x, hx, hxi⟩ := hs.1.within hc
    have hm := (hc.within hr).merge hS hc hxi hx
    have ht : Step S w (r.merge s).2 := .merge hr hs.1
    rw [hm] at ht
    have ha := Arrives.step hw ht
    have ⟨q, w', hq, haq, hl⟩ := hi ha.reachable ha.mem fun t ht => (hs.2 t ht).mono ha.keeps
    exact ⟨q, w', mergeAll_cons.mpr ⟨_, hm, hq⟩, ha.trans haq hl,
      Document.le_trans (Document.le_join_left ((hc.within hr).agrees hc hxi)) hl⟩

omit hS hb in
theorem capture_arrives (hl : Leads w r) (baseline : SyncValues)
    (hc : ∀ (k : String) v, current.values[k]? = some v → v ∈ S) (scope identities)
    (hk : ∀ k, k ∈ baseline ∨ k ∈ current.values → ∃ f, fromKey k = some f) :
    ∃ x r', r.capture baseline current scope identities = (.ok x, r') ∧ Arrives S w (r' :: w) r' ∧
      r.document ≤ r'.document := by
  have ⟨x, r', h⟩ := exists_capture_ok r scope identities hk
  have ht := Step.capture hr hl baseline hc scope identities
  have hle := le_capture r baseline current scope identities
  rw [h] at ht hle
  exact ⟨x, r', h, .step hw ht, hle⟩

open Prepare in
theorem mergeSeed_arrives (seeded : SyncProjection) (scope : SyncScope) (entropy : Entropy)
    (hc : ∀ (k : String) v, seeded.values[k]? = some v → v ∈ S)
    (hk : ∀ k, k ∈ seeded.values → ∃ f, fromKey k = some f)
    (hn : ∀ x ∈ w, ∀ i p, x.document.op? i = some p → i.actor ≠ entropy.seed) :
    ∃ r' w', mergeSeed r seeded scope entropy = .ok r' ∧ Arrives S w w' r' ∧
      r.document ≤ r'.document := by
  unfold mergeSeed
  split
  case isTrue => exact ⟨r, w, rfl, .refl hw hr, Document.le_refl _⟩
  have hn' : Leads (SyncReplica.new entropy.seed :: w) (SyncReplica.new entropy.seed) := by
    intro x hx i p hp hi
    rcases mem_cons.mp hx with rfl | hx
    · exact hp
    · exact absurd hi (hn x hx i p hp)
  have ⟨x, seed, hx, ha, _⟩ := capture_arrives (hw.step (.new entropy.seed))
    (.head _ ..) hn' ∅ hc scope entropy.seedWrites fun k h => hk k (by simpa using h)
  obtain ⟨r', hm, ht, _, h, rfl⟩ := exists_merged hS (ha.reachable.coherent hS hb)
    (r := r) (q := seed) (by simp [hr]) (by simp)
  refine ⟨r.join seed h, _, ?_, ⟨ha.reachable.step ht, by simp, fun y hy => by simp [hy], fun y hy => ?_⟩,
    Document.le_join_left h⟩
  · simp only [Fallible.bind_eq_ok, succeed_eq_ok]
    exact ⟨seed, ⟨x, hx⟩, (), hm⟩
  · simp only [mem_cons] at hy
    rcases hy with rfl | rfl | rfl | hy
    · exact .inr (Document.le_refl _)
    · exact .inr (Document.le_join_right h)
    · exact .inr (Document.empty_le _)
    · exact .inl hy

end Arrives

-- A call of a device of the world, with what was sent in it.
structure Serves (S : Set SyncValue) (w : World) (c : Prepare.Request) : Prop where
  replica : ∀ s, c.localSnapshot = some s → Sent w s
  remotes : ∀ s ∈ c.remotes, Sent w s
  leads : ∀ r, Prepare.openReplica c.actor c.localSnapshot = .ok r → Leads w r
  actor : c.actor ≠ c.entropy.seed
  seed : ∀ x ∈ w, ∀ i p, x.document.op? i = some p → i.actor ≠ c.entropy.seed
  current : ∀ (k : String) v, c.current.values[k]? = some v → v ∈ S
  keys : ∀ k, k ∈ c.baseline ∨ k ∈ c.current.values → ∃ f, SyncFieldId.fromKey k = some f

section Serves

open Prepare

variable (hS : Collisionless S) (hb : ∀ b, SyncValue.bool b ∈ S)
  (hw : Reachable S w) {c : Request} (h : Serves S w c)
include hS hb hw h

theorem Serves.within : c.Within S := by
  refine ⟨fun s hs id v hv => ?_, h.current⟩
  have ⟨q, hq, hi⟩ := (h.replica s hs).within (hw.coherent hS hb)
  rw [← (load_eq_ok.mp hq).2.2.2.1] at hv
  exact hi.stores id v hv

theorem Serves.fresh : c.Fresh := by
  refine ⟨h.actor, fun s hs x hx i p hp => ?_⟩
  have hs : Sent w s := hs.elim (h.replica s) (h.remotes s)
  have ⟨q, hq, hi⟩ := hs.within (hw.coherent hS hb)
  cases hq.symm.trans hx
  have ⟨y, hy, hp⟩ := hi.held i p hp
  exact h.seed y hy i p hp

theorem Serves.opens : ∃ r, openReplica c.actor c.localSnapshot = .ok r ∧ Step S w r ∧
    Within S w r := by
  cases hl : c.localSnapshot
  case none => exact ⟨_, rfl, .new c.actor, .new c.actor⟩
  case some s =>
    have ⟨q, hq, hi⟩ := (h.replica s hl).within (hw.coherent hS hb)
    have hr := load_withActor (b := c.actor) hq
    exact ⟨_, hr, .load (h.replica s hl) hr, hi.withActor c.actor⟩

theorem Serves.run : ∃ plan r ws us q w', c.run = .ok plan ∧ c.Yields plan r ws us q ∧
    Arrives S w w' q := by
  have ⟨r, hr, hst, hri⟩ := h.opens hS hb hw
  have ha₀ := Arrives.step hw hst
  have hl : Leads (r :: w) r := by
    intro x hx i p hp ha
    rcases mem_cons.mp hx with rfl | hx
    · exact hp
    · exact h.leads r hr x hx i p hp ha
  obtain ⟨x, r₁, hx, ha₁, hl₁⟩ := capture_arrives ha₀.reachable ha₀.mem hl c.baseline
    (fun k v hv => h.current k v (getElem?_of_ordinary hv)) c.scope c.entropy.writes
    fun k hk => h.keys k (hk.imp_right mem_of_mem_ordinary)
  have ⟨rs, hrs⟩ : ∃ rs, remoteResources c.localSnapshot.isNone c.remotes = .ok rs := by
    refine exists_remoteResources fun s hs => ?_
    have ⟨q, hq, _⟩ := (h.remotes s hs).within (hw.coherent hS hb)
    exact ⟨q, hq⟩
  have hn (y) (hy : y ∈ r₁ :: r :: w) (i p) (hp : y.document.op? i = some p) :
      i.actor ≠ c.entropy.seed := by
    have hr' {i p} (hp : r.document.op? i = some p) : i.actor ≠ c.entropy.seed := by
      have ⟨z, hz, hp⟩ := hri.held i p hp
      exact h.seed z hz i p hp
    simp only [mem_cons] at hy
    rcases hy with rfl | rfl | hy
    · obtain ⟨ws, rfl, _⟩ := capture_ok hx
      rcases op?_performAll hp with hp | ⟨ha, _⟩
      · exact hr' hp
      · rw [ha, (Request.opened_valid hr).2]
        exact h.actor
    · exact hr' hp
    · exact h.seed y hy i p hp
  have ⟨r₂, w₂, hs, ha₂, hl₂⟩ := mergeSeed_arrives hS hb ha₁.reachable ha₁.mem
    (independent c.baseline c.current
      (defaultOnJoin c.localSnapshot.isNone c.scope c.current rs)) c.scope c.entropy
    (fun k v hv => h.current k v (getElem?_independent.mp hv).1) independent_keys hn
  have ⟨q, w₃, hm, ha₃, hl₃⟩ := mergeAll_arrives hS hb ha₂.reachable ha₂.mem fun s hs =>
    (h.remotes s hs).mono fun y hy => ha₂.keeps y (ha₁.keeps y (ha₀.keeps y hy))
  have hq := (ha₃.reachable.coherent hS hb).valid q ha₃.mem
  have ⟨m, hmat⟩ := exists_materialize hq.consistent c.current.values c.scope
  have ⟨cs, hcs⟩ := exists_conflicts.mpr hq.consistent
  have hle := Document.le_trans hl₁ (Document.le_trans hl₂ hl₃)
  let plan : SyncPlan := ⟨c.current, c.scope, q.snapshot, m, cs⟩
  have ⟨ws, us, hy⟩ : ∃ ws us, c.Yields plan r ws us q :=
    Request.yields_of_stages hr hrs hx hs hm hq hmat hcs rfl rfl
  refine ⟨plan, r, ws, us, q, w₃, Request.run_eq_ok.mpr ?_, hy, ?_⟩
  · exact ⟨r, rs, x, r₁, r₂, q, hr, hrs, hx, hs, hm, hmat, hcs, rfl, rfl, rfl⟩
  · exact ha₀.trans (ha₁.trans (ha₂.trans ha₃ hl₃) (Document.le_trans hl₂ hl₃)) hle

end Serves

end World

open Prepare in
-- Joining loses nothing: what the remotes show of a resource that the baseline does not know stays
-- a candidate unless the replica had overwritten it before, the device keeps its own values of such
-- a resource, and the order of the remotes does not matter.
theorem prepare_loses_nothing {S : Set SyncValue} (hS : Collisionless S)
    (hb : ∀ b, SyncValue.bool b ∈ S) {c : Request} (hc : c.Within S) (hf : c.Fresh)
    (hcur : c.current.Recorded) {plan : SyncPlan} (h : c.run = .ok plan) :
    (∃ r m q, openReplica c.actor c.localSnapshot = .ok r ∧
      (new .nil).mergeAll c.remotes = .ok m ∧ load plan.replica .nil = .ok q ∧
      ∀ f cs, (∀ g : SyncFieldId, g.resource = f.resource → g.key ∉ c.baseline) →
        m.candidates f = .ok cs → ∃ ds, q.candidates f = .ok ds ∧ ∀ x ∈ cs,
          (∀ i, x.operation = operationText i → ¬r.document.Overwritten i) → x ∈ ds) ∧
    (∀ (f : SyncFieldId) v, (SyncFieldId.presence f.resource).key ∉ c.baseline →
      ¬GivesWay c.localSnapshot c.scope c.current c.remotes f.resource →
      c.current.values[f.key]? = some v → plan.effective[f.key]? = some v) ∧
    ∀ remotes, remotes.Perm c.remotes → { c with remotes }.run = .ok plan := by
  have ⟨r, ws, us, q, hp⟩ := hc.yields hS hb h
  refine ⟨?_, fun f v hn hg hv => ?_, fun remotes he => hc.run_congr hS hb h fun s => he.mem_iff.symm⟩
  · have ⟨m, hm, hu⟩ := hp.exists_merged
    refine ⟨r, m, _, hp.opened, hm, hp.replica ▸ load_snapshot hp.valid .nil, fun f cs hn hcs => ?_⟩
    have ⟨ds, hds⟩ := exists_candidates.mpr (hp.valid.readable.readableAt f)
    refine ⟨ds, hds, fun x hxs ho => (mem_candidates hds).mpr ?_⟩
    have ⟨i, v, hv, hd, hi⟩ := (mem_candidates hcs).mp hxs
    refine ⟨i, v, ?_, hd, hi⟩
    have ⟨p, hpm, _⟩ := hv.held
    have ⟨s, hs, y, hy, hpy⟩ := ((hu.ops i p).mp hpm).resolve_left (by simp [new])
    refine hp.visible_remote hf (fun w hw hwf => hp.not_captured hcur hn hw (hwf ▸ rfl)) hs hy
      (hv.of_le (hu.member_below hs hy).document hpy) (fun t ht z hz hoz => ?_) (ho i hi)
    exact hv.current (hoz.mono (hu.member_below ht hz).document)
  · exact hp.toPrepared.effective hcur hS hb hc.current hf (materialize_eq_ok.mp hp.effective).2 hv hn hg

section Clash

open Prepare

variable {f : SyncFieldId}

namespace Clash

-- A new device that has the resource joins the device that created it.
def joining (f : SyncFieldId) : Request where
  actor := 2
  current := f.full
  remotes := [(created f).snapshot]
  entropy := ⟨fun _ => 7, 9, fun _ => 8⟩

-- A device that has deleted the resource gets an old snapshot.
def returning (f : SyncFieldId) : Request where
  actor := 1
  localSnapshot := some (deleted f).snapshot
  current := {}
  remotes := [(created f).snapshot]
  entropy := ⟨fun _ => 7, 9, fun _ => 8⟩

omit [Platform] in
theorem recorded_full : f.full.Recorded := by
  intro g hg
  refine getElem?_full.mpr ⟨.inl ?_, rfl⟩
  rcases mem_full.mp hg with hk | hk
  · cases SyncFieldId.key_injective hk
    rfl
  · cases SyncFieldId.key_injective hk
    rfl

theorem serves_joining (hv : f.Valid) : World.Serves booleans [created f, new 1] (joining f) where
  replica s hs := by simp [joining] at hs
  remotes s hs := by
    simp only [joining, mem_singleton] at hs
    exact hs ▸ .snapshot (.head _ ..)
  leads r hr := by
    simp only [joining, openReplica, Except.ok.injEq] at hr
    subst hr
    refine leads_of_traced ?_
    simp only [forall_mem_cons, not_mem_nil, false_imp_iff, implies_true, and_true]
    exact ⟨.inr ⟨_, traced_created, by simp [new]⟩, .inr ⟨_, traced_new 1, by simp⟩⟩
  actor := by simp [joining]
  seed := by
    simp only [joining, forall_mem_cons, not_mem_nil, false_imp_iff, implies_true,
      and_true]
    exact ⟨traced_created.actor_ne (by simp), (traced_new 1).actor_ne (by simp)⟩
  current k v hk := by
    exact values_booleans (.inr (.inr rfl)) k v hk
  keys k hk := by
    simp only [joining, ExtTreeMap.not_mem_empty, false_or, mem_full] at hk
    exact keys_parse hv hk

theorem only_created (hv : f.Valid) (hf : fixedCloudSyncField f) :
    (created f).Only (.presence f.resource) (digest (SyncValue.bool true).bytes) := by
  have hi : ({} : SyncScope).includes f.resource.kind :=
    ((new 1).admits_of_core (fixedCloudSyncField_presence hf)).included
  exact (capture_new_present 1 {} (fun _ => 1) hv.presence hi
    fun k v => getElem?_bare).2.2

theorem le_deleted : ∀ x ∈ [deleted f, created f, new 1], x.document ≤ (deleted f).document := by
  have hl : (created f).document ≤ (deleted f).document := by
    unfold deleted
    exact le_capture _ _ _ _ _
  simp only [forall_mem_cons, not_mem_nil, false_imp_iff, implies_true, and_true]
  exact ⟨Document.le_refl _, hl, Document.empty_le _⟩

theorem serves_returning (hr : (deleted f).Valid) :
    World.Serves booleans [deleted f, created f, new 1] (returning f) where
  replica s hs := by
    simp only [returning, Option.some.injEq] at hs
    exact hs ▸ .snapshot (by simp)
  remotes s hs := by
    simp only [returning, mem_singleton] at hs
    exact hs ▸ .snapshot (by simp)
  leads r ho := by
    simp only [returning, openReplica, load_snapshot hr, Except.ok.injEq] at ho
    exact ho ▸ World.leads_of_le le_deleted 1
  actor := by simp [returning]
  seed := by
    simp only [returning, forall_mem_cons, not_mem_nil, false_imp_iff, implies_true,
      and_true]
    exact ⟨traced_deleted.actor_ne (by simp), traced_created.actor_ne (by simp),
      (traced_new 1).actor_ne (by simp)⟩
  current k v hk := by simp [returning] at hk
  keys k hk := by simp [returning] at hk

theorem op?_returning (hd : (deleted f).Valid) (hc : (created f).Valid) {r ws us q}
    (h : (returning f).Prepared r ws us q) {i p} :
    q.document.op? i = some p ↔ (deleted f).document.op? i = some p := by
  have hr : r = { deleted f with actor := 1 } := by
    have ho := h.opened
    simp only [returning, openReplica, load_snapshot hd, Except.ok.injEq] at ho
    exact ho.symm
  have hws (w) (hw : w ∈ ws) : False := by
    refine h.not_captured (fun g hg => ?_) (fun g _ => ?_) hw rfl
    · simp [returning] at hg
    · simp [returning]
  have hus (w) (hw : w ∈ us) : False := by
    have hu := h.seeds_unbased hw
    simp [mem_unbased, returning] at hu
  rw [h.op?_iff]
  constructor
  case mp =>
    rintro (hp | hp | ⟨s, hs, x, hx, hp⟩)
    · rcases op?_performAll hp with hp | ⟨_, w, hw, _⟩
      · simpa only [hr] using hp
      · exact (hws w hw).elim
    · rcases op?_performAll hp with hp | ⟨_, w, hw, _⟩
      · simp [new] at hp
      · exact (hus w hw).elim
    · simp only [returning, mem_singleton] at hs
      subst hs
      simp only [load_snapshot hc, Except.ok.injEq] at hx
      subst hx
      simp only at hp
      exact le_deleted (created f) (by simp) i p hp
  case mpr =>
    intro hp
    refine .inl (le_performAll i p ?_)
    simpa only [hr] using hp

end Clash

omit [Platform] in
theorem prepare_loses_nothing_joining : ∃ (_ : Platform) (f : SyncFieldId) (plan : SyncPlan),
    (Clash.joining f).run = .ok plan ∧ plan.effective[f.key]? = some (.bool true) := by
  obtain ⟨f, hv, -, -, hk⟩ := Clash.exists_field
  generalize Platform.sample = platform
  have hb : ∀ b, SyncValue.bool b ∈ booleans := fun b => ⟨b, rfl⟩
  have hw : World.Reachable booleans [Clash.created f, new 1] := Clash.reachable_created
  have hs := Clash.serves_joining hv
  have ⟨plan, _, _, _, _, _, hp, _⟩ := hs.run collisionless_booleans hb hw
  have hcur : (Clash.joining f).current.Recorded := Clash.recorded_full
  refine ⟨platform, f, plan, hp, (prepare_loses_nothing collisionless_booleans hb
    (hs.within collisionless_booleans hb hw) (hs.fresh collisionless_booleans hb hw) hcur hp).2.1
    f (.bool true) ?_ (fun hg => ?_) ?_⟩
  · simp [Clash.joining]
  · rcases hg.default with ⟨ha, _⟩ | ⟨v, _, hd⟩
    · simp [Clash.joining] at ha
    · simp [isDefaultPreference, hk] at hd
  · simp only [Clash.joining]
    exact SyncFieldId.getElem?_full.mpr ⟨.inr rfl, rfl⟩

omit [Platform] in
-- The replica had overwritten what the old snapshot shows, which is not a candidate any more.
theorem prepare_forgets_overwritten : ∃ (_ : Platform) (f : SyncFieldId) (plan : SyncPlan)
    (s : ReplicaSnapshot) (x q : SyncReplica) (cs ds : List SyncCandidate) (y : SyncCandidate),
    (Clash.returning f).run = .ok plan ∧ (Clash.returning f).baseline = ∅ ∧
      (Clash.returning f).remotes = [s] ∧ load s .nil = .ok x ∧ load plan.replica .nil = .ok q ∧
      x.candidates (.presence f.resource) = .ok cs ∧ q.candidates (.presence f.resource) = .ok ds ∧
      y ∈ cs ∧ y ∉ ds := by
  obtain ⟨f, hv, hf, -⟩ := Clash.exists_field
  generalize Platform.sample = platform
  have hb : ∀ b, SyncValue.bool b ∈ booleans := fun b => ⟨b, rfl⟩
  have ⟨i, hi⟩ := Clash.marks_deleted hv hf
  have hw := Clash.reachable_created.step hi.step
  have hc := Clash.coherent hw
  have hd := hc.valid (Clash.deleted f) (by simp)
  have hcr := hc.valid (Clash.created f) (by simp)
  have hs := Clash.serves_returning hd
  have ⟨plan, r, ws, us, q, _, hp, hy, _⟩ := hs.run collisionless_booleans hb hw
  have hu {d} (h : q.Holds (.presence f.resource) d) : d = digest (SyncValue.bool false).bytes := by
    have ⟨i, v, hv, hr⟩ := h
    have ⟨p, hp, _⟩ := hv.held
    refine hi.only.unique d ⟨i, v, hv.of_le (fun i p => ?_)
      ((Clash.op?_returning hd hcr hy.toPrepared).mp hp), hr⟩
    exact (Clash.op?_returning hd hcr hy.toPrepared).mpr
  have hx := hcr.withActor .nil
  have ⟨cs, hcs⟩ := exists_candidates.mpr (hx.readable.readableAt (.presence f.resource))
  have ⟨ds, hds⟩ := exists_candidates.mpr
    ((hy.valid.withActor .nil).readable.readableAt (.presence f.resource))
  have ⟨y, hyc, hyv⟩ := (holds_iff hcs).mp (holds_withActor.mpr (Clash.only_created hv hf).holds)
  refine ⟨platform, f, plan, _, _, _, cs, ds, y, hp, rfl, rfl, load_snapshot hcr .nil,
    hy.replica ▸ load_snapshot hy.valid .nil, hcs, hds, hyc, fun hyd => ?_⟩
  have hh := holds_withActor.mp ((holds_iff hds).mpr ⟨y, hyd, hyv⟩)
  exact absurd (digest_bool (hu hh)) (by simp)

end Clash

end NyaTerm

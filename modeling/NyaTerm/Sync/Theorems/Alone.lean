import NyaTerm.Sync.Theorems.Join

open List

open Std Causal

namespace NyaTerm

open SyncFieldId

open SyncReplica

-- A state of a device over the supported fields of a scope, of which nothing is left out.
structure SyncProjection.Whole (p : SyncProjection) (scope : SyncScope) : Prop where
  recorded : p.Recorded
  supported : ∀ k ∈ p.values, ∃ f, SyncFieldId.fromKey k = some f ∧
    scope.includes f.resource.kind ∧ supportsField f.resource.kind f.field
  complete : ∀ kind, scope.includes kind → kind ∈ p.complete

variable {f : SyncFieldId}

variable {p : SyncProjection}

theorem SyncProjection.Whole.field {scope} (h : p.Whole scope)
    (hf : f.key ∈ p.values) :
    f.Valid ∧ scope.includes f.resource.kind ∧ supportsField f.resource.kind f.field := by
  have ⟨g, hg, hs⟩ := h.supported _ hf
  have ⟨hv, hk⟩ := fromKey_eq_some.mp hg
  cases SyncFieldId.key_injective hk
  exact ⟨hv, hs⟩

theorem SyncProjection.Recorded.presence_mem (h : p.Recorded)
    (hf : f.key ∈ p.values) : (presence f.resource).key ∈ p.values :=
  mem_iff_getElem?_eq_some.mpr ⟨_, h f hf⟩

variable [Platform]

namespace SyncReplica

omit [Platform] in
theorem only_congr {r s : SyncReplica} {f d}
    (h : s.document.getAll f.key = r.document.getAll f.key) : s.Only f d ↔ r.Only f d := by
  constructor
  case mp =>
    exact fun ho => ⟨(holds_congr h).mp ho.holds, fun e he => ho.unique e ((holds_congr h).mpr he)⟩
  case mpr =>
    exact fun ho => ⟨(holds_congr h).mpr ho.holds, fun e he => ho.unique e ((holds_congr h).mp he)⟩

omit [Platform] in
theorem only_withActor {r : SyncReplica} {f d} :
    ({ r with actor := a } : SyncReplica).Only f d ↔ r.Only f d :=
  only_congr (r := r) (s := { r with actor := a }) rfl

theorem exists_write_of_written_new {identities ws f}
    (h : ((new a).performAll identities ws).Written f) : ∃ w ∈ ws, w.field = f := by
  have ⟨i, p, hp, hk⟩ := Document.mem_keys.mp h
  exact exists_write_of_adds ⟨i, p, hp, by simp [new], hk⟩

omit [Platform] in
theorem Captured.untouched {r : SyncReplica} {baseline current scope ws}
    (h : r.Captured baseline current scope ws) {f} (he : ¬r.Edits baseline current scope f)
    (hp : f.field = present → ¬r.Deletes baseline current scope f.resource ∧
      ∀ g, g.resource = f.resource → ¬r.Edits baseline current scope g) : ∀ w ∈ ws, w.field ≠ f := by
  rintro w hw rfl
  cases h.reasons w hw
  case deletion ρ hd => exact (hp rfl).1 hd
  case edit f hf => exact he hf
  case presence g hg => exact (hp rfl).2 g rfl hg

-- The registers of a resource show what a state has of it, and nothing else.
structure Mirrors (r : SyncReplica) (s : SyncValues) (ρ : SyncResourceId) : Prop where
  absent : (SyncFieldId.presence ρ).key ∉ s → r.Written (.presence ρ) →
    r.Only (.presence ρ) (digest (SyncValue.bool false).bytes)
  value : ∀ (f : SyncFieldId) v, f.resource = ρ → s[f.key]? = some v → r.Only f (digest v.bytes)
  missing : ∀ f : SyncFieldId, f.resource = ρ → (SyncFieldId.presence ρ).key ∈ s →
    f.key ∉ s → r.Written f → r.Only f deleted

theorem Mirrors.withActor {r : SyncReplica} {s ρ} (h : r.Mirrors s ρ) (a : Uuid) :
    ({ r with actor := a } : SyncReplica).Mirrors s ρ where
  absent hn hw := only_withActor.mpr (h.absent hn hw)
  value f v hf hv := only_withActor.mpr (h.value f v hf hv)
  missing f hf hk hn hw := only_withActor.mpr (h.missing f hf hk hn hw)

section Mirrors

variable (hS : Collisionless S) {r : SyncReplica} (hr : r.Valid)
  (hs : r.Stores S) (hf : r.fixed = false)
include hS hr hs hf

theorem Only.reads {f v} (h : r.Only f (digest v.bytes)) (hv : v ∈ S) :
    r.values[digest v.bytes]? = some v := by
  obtain ⟨i, x, hx, hd⟩ := h.holds
  obtain ⟨d, hd', hres⟩ := hr.readable.readableAt f i x hx
  cases hd.symm.trans hd'
  have hm := (hres.resolve_left (digest_ne_deleted _)).resolve_right (by simp [skips, hf])
  obtain ⟨v', hv'⟩ := mem_iff_getElem?_eq_some.mp hm
  rw [hv', hS v' (hs _ _ hv') v hv (hr.digests _ _ hv')]

omit hS hs in
theorem written_presence {f} (hw : r.Written f) : r.Written (.presence f.resource) :=
  (hr.presences f hw (by simp [skips, hf])).written

variable (hb : ∀ b, SyncValue.bool b ∈ S)
include hb

theorem Mirrors.gone {ρ} (h : r.Mirrors p.values ρ) (hn : (presence ρ).key ∉ p.values)
    (hw : r.Written (.presence ρ)) : r.Gone ρ := by
  have ho := h.absent hn hw
  exact ⟨_, _, ho, ho.reads hS hr hs hf (hb false), SyncValue.decode_bool false⟩

theorem Mirrors.not_reported (h : ∀ ρ, r.Mirrors p.values ρ) {c} : ¬r.Reported c := by
  intro hc
  have hw := hc.disputed.written
  have hm := h c.field.resource
  by_cases hpr : (presence c.field.resource).key ∈ p.values
  case pos =>
    cases hv : p.values[c.field.key]?
    case some v => exact (hm.value c.field v rfl hv).not_disputed hc.disputed
    case none =>
      have hn : c.field.key ∉ p.values := by simp [ExtTreeMap.mem_iff_isSome_getElem?, hv]
      exact (hm.missing c.field rfl hpr hn hw).not_disputed hc.disputed
  case neg =>
    have hg := hm.gone hS hr hs hf hb hpr (written_presence hr hf hw)
    rcases hc.shown with hpf | hn
    · exact hg.not_disputed (eq_presence hpf ▸ hc.disputed)
    · exact hn (.inr hg)

variable (hp : p.Recorded)
include hp

omit hS hs hf hb in
theorem Mirrors.not_gone {ρ} (h : r.Mirrors p.values ρ)
    (hk : (presence ρ).key ∈ p.values) : ¬r.Gone ρ := by
  intro hg
  have ho : r.Only (.presence ρ) (digest (SyncValue.bool true).bytes) :=
    h.value (.presence ρ) (.bool true) rfl (hp (.presence ρ) hk)
  exact absurd (digest_bool (ho.eq (hg.only hr.digests))) (by simp)

theorem Mirrors.materialized (h : ∀ ρ, r.Disputed (.presence ρ) ∨ r.Mirrors p.values ρ)
    (hpS : ∀ (k : String) v, p.values[k]? = some v → v ∈ S) (scope) :
    r.Materialized p.values scope p.values where
  foreign _ _ := rfl
  removed f _ hrm := by
    have hm := (h f.resource).resolve_left hrm.gone.not_disputed
    by_contra hk
    have ⟨v, hv⟩ := Option.ne_none_iff_exists'.mp hk
    exact hm.not_gone hr hp (hp.presence_mem (mem_iff_getElem?_eq_some.mpr ⟨v, hv⟩)) hrm.gone
  settled f v hl hst := by
    have hm := (h f.resource).resolve_left hl.undisputed
    have ⟨d, ho, hrd⟩ := hst.value
    have hpm : (presence f.resource).key ∈ p.values := by
      by_contra hn
      exact hl.present (hm.gone hS hr hs hf hb hn (written_presence hr hf hst.written))
    cases hv : p.values[f.key]?
    case some w =>
      have ho' := hm.value f w rfl hv
      have hd := ho'.reads hS hr hs hf (hpS _ _ hv)
      exact (hr.digests.reads hd).unique (ho'.eq ho ▸ hrd)
    case none =>
      have hn : f.key ∉ p.values := by simp [ExtTreeMap.mem_iff_isSome_getElem?, hv]
      cases (hm.missing f rfl hpm hn hst.written).eq ho
      exact Reads.tombstone.unique hrd
  kept _ _ _ := rfl

end Mirrors

end SyncReplica

namespace Prepare.Request

-- A call on a replica that holds all there is.
structure Lone (c : Request) (r : SyncReplica) : Prop where
  fresh : c.Fresh
  current : c.current.Whole c.scope
  recorded : ∀ f : SyncFieldId, f.key ∈ c.baseline →
    (SyncFieldId.presence f.resource).key ∈ c.baseline
  supported : ∀ f : SyncFieldId, f.key ∈ c.baseline → f.Valid ∧
    c.scope.includes f.resource.kind ∧ supportsField f.resource.kind f.field
  remotes : ∀ s ∈ c.remotes, ∀ x, load s .nil = .ok x →
    x.document ≤ r.document ∧ x.fixed = false
  first : c.localSnapshot = none → c.remotes = []
  unfixed : r.fixed = false
  mirrors : ∀ ρ, r.Mirrors c.baseline ρ

section Lone

variable {c : Request} (h : c.Prepared r ws us q)
  (hl : c.Lone r)
include h hl

omit h in
theorem Lone.not_givesWay (ρ) : ¬GivesWay c.localSnapshot c.scope c.current c.remotes ρ := by
  intro hg
  have ⟨s, hs, _⟩ := hg.remote
  simp [hl.first hg.first] at hs

theorem Lone.op?_iff {i p} : q.document.op? i = some p ↔
    (r.performAll c.entropy.writes ws).document.op? i = some p ∨
      ((new c.entropy.seed).performAll c.entropy.seedWrites us).document.op? i = some p := by
  rw [h.op?_iff]
  constructor
  case mp =>
    rintro (hp | hp | ⟨s, hs, x, hx, hp⟩)
    · exact .inl hp
    · exact .inr hp
    · exact .inl (le_performAll i p ((hl.remotes s hs x hx).1 i p hp))
  case mpr => exact Or.imp_right .inl

theorem Lone.fixed : q.fixed = false := by
  have ⟨_, hu⟩ := h.union
  rw [Bool.eq_false_iff, Ne, hu.fixed, not_or]
  refine ⟨by simp [join, new, hl.unfixed], ?_⟩
  rintro ⟨s, hs, x, hx, hf⟩
  simp [(hl.remotes s hs x hx).2] at hf

theorem Lone.getAll_captured (hn : ∀ w ∈ us, w.field ≠ f) :
    q.document.getAll f.key = (r.performAll c.entropy.writes ws).document.getAll f.key := by
  refine Document.getAll_eq_of_le (fun i p hp => (hl.op?_iff h).mpr (.inl hp)) fun i p hp hk => ?_
  rcases (hl.op?_iff h).mp hp with hp | hp
  · exact hp
  · rcases op?_performAll hp with hp | ⟨_, w, hw, hwk, _⟩
    · simp [new] at hp
    · exact absurd (SyncFieldId.key_injective (hwk.symm.trans hk)) (hn w hw)

theorem Lone.getAll_seed (hr : ¬r.Written f) (hn : ∀ w ∈ ws, w.field ≠ f) :
    q.document.getAll f.key =
      ((new c.entropy.seed).performAll c.entropy.seedWrites us).document.getAll f.key := by
  refine Document.getAll_eq_of_le (fun i p hp => (hl.op?_iff h).mpr (.inr hp)) fun i p hp hk => ?_
  rcases (hl.op?_iff h).mp hp with hp | hp
  · rcases op?_performAll hp with hp | ⟨_, w, hw, hwk, _⟩
    · exact absurd (Document.mem_keys.mpr ⟨i, p, hp, hk⟩) hr
    · exact absurd (SyncFieldId.key_injective (hwk.symm.trans hk)) (hn w hw)
  · exact hp

theorem Lone.not_captured (hn : (presence ρ).key ∉ c.baseline) {w} (hw : w ∈ ws) :
    w.field.resource ≠ ρ := by
  refine h.not_captured hl.current.recorded (fun g hg hk => hn ?_) hw
  exact hg ▸ hl.recorded g hk

omit hl in
theorem Lone.not_seeded (hn : (presence ρ).key ∈ c.current.values →
    (presence ρ).key ∈ c.baseline) {w} (hw : w ∈ us) : w.field.resource ≠ ρ := by
  rintro rfl
  have ⟨_, hc, hb⟩ := mem_unbased.mp (h.seeds_unbased hw)
  exact hb (hn hc)

theorem Lone.known (hw : q.Written (.presence ρ)) : r.Written (.presence ρ) ∨
    (presence ρ).key ∈ c.baseline ∨ (presence ρ).key ∈ c.current.values := by
  have ⟨i, p, hp, hk⟩ := Document.mem_keys.mp hw
  rcases (hl.op?_iff h).mp hp with hp | hp
  · rcases op?_performAll hp with hp | ⟨_, w, hw, hwk, _⟩
    · exact .inl (Document.mem_keys.mpr ⟨i, p, hp, hk⟩)
    · refine .inr (.inl ?_)
      by_contra hb
      have hwf := SyncFieldId.key_injective (hwk.symm.trans hk)
      exact hl.not_captured h hb hw (congrArg resource hwf)
  · have ⟨w, hw, hwf⟩ := exists_write_of_written_new (Document.mem_keys.mpr ⟨i, p, hp, hk⟩)
    have hu := h.seeds_unbased hw
    rw [hwf] at hu
    exact .inr (.inr (mem_unbased.mp hu).2.1)

theorem Lone.mirrors_seeded (hv : r.Valid) (hc : (presence ρ).key ∈ c.current.values)
    (hb : (presence ρ).key ∉ c.baseline) (hw : ¬r.Written (.presence ρ)) :
    q.Mirrors c.current.values ρ := by
  have hg {f : SyncFieldId} (hf : f.resource = ρ) : q.document.getAll f.key =
      ((new c.entropy.seed).performAll c.entropy.seedWrites us).document.getAll f.key := by
    refine hl.getAll_seed h (fun hwf => hw ?_) fun w hw hwf => ?_
    · exact hf ▸ written_presence hv hl.unfixed hwf
    · exact hl.not_captured h hb hw (hwf ▸ hf)
  refine ⟨fun hn => absurd hc hn, fun f v hf hfv => ?_, fun f hf _ hn hwf => ?_⟩
  · subst hf
    have ⟨hfv', hi, hs⟩ := hl.current.field (mem_iff_getElem?_eq_some.mpr ⟨v, hfv⟩)
    have ho := h.seeds hl.current.recorded hfv' hfv hb (hl.not_givesWay _) hi hs
    exact (only_congr (hg rfl)).mpr (only_performAll _ _ ho)
  · -- A field that the state does not have is not seeded.
    obtain ⟨w, hw, rfl⟩ := exists_write_of_written_new ((written_congr (hg hf)).mp hwf)
    have ⟨gives, _, hcap⟩ := h.seeded
    cases hcap.reasons w hw
    case deletion hd => simpa using hd.known
    case edit f he =>
      have ⟨v, hv⟩ := mem_iff_getElem?_eq_some.mp (he.observed.resolve_left (by simp))
      exact absurd (mem_iff_getElem?_eq_some.mpr ⟨v, (getElem?_independent.mp hv).1⟩) hn
    case presence f _ =>
      rw [← hf] at hc
      exact absurd hc hn

section

variable (hc : (presence ρ).key ∉ c.current.values)
include hc

theorem Lone.mirrors_deleted
    (hb : (presence ρ).key ∈ c.baseline) : q.Mirrors c.current.values ρ := by
  have ⟨hv, hi, _⟩ := hl.supported (.presence ρ) hb
  have hd : r.Deletes c.baseline (ordinary c.baseline c.current) c.scope ρ :=
    ⟨hv, ⟨hi, by simp [skips, hl.unfixed], supportsField_present hi⟩,
      hl.current.complete _ hi, hb, fun hk => hc (mem_of_mem_ordinary hk)⟩
  have hg := hl.getAll_captured (f := .presence ρ) h fun w hw hwf =>
    Lone.not_seeded h (ρ := ρ) (fun h => absurd h hc) hw (congrArg resource hwf)
  refine ⟨fun _ _ => ?_, fun f v hf hfv => ?_, fun f _ hk => absurd hk hc⟩
  · exact (only_congr hg).mpr (only_performAll _ _ (h.captured.deletes ρ hd))
  · exact absurd (hf ▸ hl.current.recorded.presence_mem (mem_iff_getElem?_eq_some.mpr ⟨v, hfv⟩)) hc

theorem Lone.mirrors_absent
    (hb : (presence ρ).key ∉ c.baseline) : q.Mirrors c.current.values ρ := by
  have hg : q.document.getAll (presence ρ).key =
      r.document.getAll (presence ρ).key := by
    rw [hl.getAll_captured h fun w hw hwf =>
      Lone.not_seeded h (ρ := ρ) (fun h => absurd h hc) hw (congrArg resource hwf)]
    exact getAll_performAll_of_not_mem r _ fun w hw hwf =>
      hl.not_captured h hb hw (congrArg resource hwf)
  refine ⟨fun _ hw => ?_, fun f v hf hfv => ?_, fun f _ hk => absurd hk hc⟩
  · exact (only_congr hg).mpr ((hl.mirrors ρ).absent hb ((written_congr hg).mp hw))
  · exact absurd (hf ▸ hl.current.recorded.presence_mem (mem_iff_getElem?_eq_some.mpr ⟨v, hfv⟩)) hc

end

section Kept

-- The resource is still there.
variable (hc : (presence ρ).key ∈ c.current.values)
  (hb : (presence ρ).key ∈ c.baseline)
include hb

omit h hl in
theorem getElem?_kept (hv : f.Valid) (hf : f.resource = ρ) :
    (ordinary c.baseline c.current).values[f.key]? = c.current.values[f.key]? := by
  have hu : ρ ∉ unbased c.baseline c.current := fun hu => (mem_unbased.mp hu).2.2 hb
  rw [getElem?_ordinary hv, if_neg (hf ▸ hu)]

theorem Lone.getAll_kept (hf : f.resource = ρ) : q.document.getAll f.key =
    (r.performAll c.entropy.writes ws).document.getAll f.key :=
  hl.getAll_captured h fun _ hw hwf => Lone.not_seeded h (fun _ => hb) hw (hwf ▸ hf)

include hc

omit h in
theorem Lone.not_deletes : ¬r.Deletes c.baseline (ordinary c.baseline c.current) c.scope ρ := by
  intro hd
  refine hd.absent (mem_iff_getElem?_eq_some.mpr ⟨.bool true, ?_⟩)
  rw [getElem?_kept hb hd.valid rfl]
  exact hl.current.recorded (.presence ρ) hc

theorem Lone.only_kept (hf : f.resource = ρ) {v}
    (hfv : c.current.values[f.key]? = some v) :
    (r.performAll c.entropy.writes ws).Only f (digest v.bytes) := by
  have hm := mem_iff_getElem?_eq_some.mpr ⟨v, hfv⟩
  have ⟨hv, hi, hs⟩ := hl.current.field hm
  have hmo : f.key ∈ (ordinary c.baseline c.current).values :=
    mem_iff_getElem?_eq_some.mpr ⟨v, (getElem?_kept hb hv hf).trans hfv⟩
  by_cases hp : f.field = present ∧
    ∃ g, g.resource = ρ ∧ r.Edits c.baseline (ordinary c.baseline c.current) c.scope g
  case pos =>
    have ⟨hp, g, hg, he⟩ := hp
    have hfp : f = .presence g.resource := by rw [hg, ← hf, ← eq_presence hp]
    have ht := hl.current.recorded f hm
    rw [hf, ← hg, ← hfp, hfv, Option.some.injEq] at ht
    rw [ht, hfp]
    exact only_performAll _ _ (h.captured.presents g he)
  case neg =>
    by_cases he : r.Edits c.baseline (ordinary c.baseline c.current) c.scope f
    case pos =>
      have ht := h.captured.edits f he fun hpf => hp ⟨hpf, f, hf, he⟩
      rw [getElem?_kept hb hv hf, hfv] at ht
      exact only_performAll _ _ ht
    case neg =>
      have hne := h.captured.untouched he fun hpf =>
        ⟨hf ▸ hl.not_deletes hc hb, fun g hg hge => hp ⟨hpf, g, hg.trans hf, hge⟩⟩
      refine (only_congr (getAll_performAll_of_not_mem r _ hne)).mpr ((hl.mirrors ρ).value f v hf ?_)
      by_contra hbv
      refine he ⟨hv, .inr hmo, ⟨hi, by simp [skips, hl.unfixed], hs⟩, .inr hmo,
        hf ▸ hl.not_deletes hc hb, .inl ?_⟩
      rwa [getElem?_kept hb hv hf, hfv]

theorem Lone.deleted_kept (hf : f.resource = ρ) (hn : f.key ∉ c.current.values)
    (hw : (r.performAll c.entropy.writes ws).Written f) :
    (r.performAll c.entropy.writes ws).Only f deleted := by
  have hp : f.field ≠ present := by
    intro hp
    rw [eq_presence hp, hf] at hn
    exact hn hc
  by_cases hk : f.key ∈ c.baseline
  case pos =>
    have ⟨hv, hi, hs⟩ := hl.supported f hk
    have hcn := ExtTreeMap.getElem?_eq_none hn
    have ⟨v, hbv⟩ := mem_iff_getElem?_eq_some.mp hk
    have he : r.Edits c.baseline (ordinary c.baseline c.current) c.scope f :=
      ⟨hv, .inl hk, ⟨hi, by simp [skips, hl.unfixed], hs⟩, .inl (hl.current.complete _ hi),
        hf ▸ hl.not_deletes hc hb, .inl (by simp [getElem?_kept hb hv hf, hcn, hbv])⟩
    have ht := h.captured.edits f he hp
    rw [getElem?_kept hb hv hf, hcn] at ht
    exact only_performAll _ _ ht
  case neg =>
    have he : ¬r.Edits c.baseline (ordinary c.baseline c.current) c.scope f :=
      fun he => he.observed.elim hk fun ho => hn (mem_of_mem_ordinary ho)
    have hg := getAll_performAll_of_not_mem r c.entropy.writes
      (h.captured.untouched he fun hpf => absurd hpf hp)
    exact (only_congr hg).mpr ((hl.mirrors ρ).missing f hf hb hk ((written_congr hg).mp hw))

theorem Lone.mirrors_kept : q.Mirrors c.current.values ρ := by
  refine ⟨fun hn => absurd hc hn, fun f v hf hfv => ?_, fun f hf _ hn hw => ?_⟩
  · exact (only_congr (hl.getAll_kept h hb hf)).mpr (hl.only_kept h hc hb hf hfv)
  · have hg := hl.getAll_kept h hb hf
    exact (only_congr hg).mpr (hl.deleted_kept h hc hb hf hn ((written_congr hg).mp hw))

end Kept

theorem Lone.disputed (hc : (presence ρ).key ∈ c.current.values)
    (hb : (presence ρ).key ∉ c.baseline) (hw : r.Written (.presence ρ)) :
    q.Disputed (.presence ρ) := by
  have ⟨hv, hi, hs⟩ := hl.current.field hc
  have hsd := h.seeds hl.current.recorded hv (hl.current.recorded (.presence ρ) hc) hb
    (hl.not_givesWay _) hi hs
  have ht : q.Holds (.presence ρ) (digest (SyncValue.bool true).bytes) :=
    h.holds_seed hl.fresh hsd
  have ⟨i, v, hvis, hd⟩ := ((hl.mirrors ρ).absent hb hw).holds
  refine ⟨_, _, ht, ⟨i, v, ?_, hd⟩, fun he => absurd (digest_bool he) (by simp)⟩
  have ⟨p, hp, hk, hpv⟩ := hvis.held
  have hpr : (r.performAll c.entropy.writes ws).document.op? i = some p := le_performAll i p hp
  refine ⟨⟨p, (hl.op?_iff h).mpr (.inl hpr), hk, hpv⟩, ?_⟩
  rintro ⟨j, p', hp', hj⟩
  rcases (hl.op?_iff h).mp hp' with hp' | hp'
  · have ⟨p₀, hp₀, hk₀, _⟩ := Document.pred_held hp' hj
    cases hpr.symm.trans hp₀
    rcases op?_performAll hp' with hp' | ⟨_, w, hw, hwk, _⟩
    · exact hvis.current ⟨j, p', hp', hj⟩
    · have hwf := SyncFieldId.key_injective (hwk.symm.trans (hk₀.symm.trans hk))
      exact hl.not_captured h hb hw (congrArg resource hwf)
  · have ⟨p₀, hp₀, _⟩ := Document.pred_held hp' hj
    exact h.actor_local hl.fresh hpr (actor_seed hp₀)

theorem Lone.mirrors_current (hv : r.Valid)
    (hn : (presence ρ).key ∈ c.current.values →
      (presence ρ).key ∉ c.baseline → ¬r.Written (.presence ρ)) :
    q.Mirrors c.current.values ρ := by
  by_cases hc : (presence ρ).key ∈ c.current.values
  case pos =>
    by_cases hb : (presence ρ).key ∈ c.baseline
    case pos => exact hl.mirrors_kept h hc hb
    case neg => exact hl.mirrors_seeded h hv hc hb (hn hc hb)
  case neg =>
    by_cases hb : (presence ρ).key ∈ c.baseline
    case pos => exact hl.mirrors_deleted h hc hb
    case neg => exact hl.mirrors_absent h hc hb

end Lone

end Prepare.Request

open Prepare

-- A synchronization of a device that is alone.
structure Turn where
  actor : Uuid
  current : SyncProjection
  remotes : List ReplicaSnapshot := []
  entropy : Entropy

namespace Turn

-- The call that follows on earlier ones, of which the last one comes first.
def request (t : Turn) (scope : SyncScope) (plans : List SyncPlan) : Request where
  actor := t.actor
  localSnapshot := plans.head?.map (·.replica)
  baseline := (plans.head?.map (·.effective)).getD ∅
  current := t.current
  remotes := t.remotes
  scope
  entropy := t.entropy

structure Allowed (S : Set SyncValue) (scope : SyncScope) (plans : List SyncPlan) (t : Turn) :
    Prop where
  state : t.current.Whole scope
  values : ∀ (k : String) v, t.current.values[k]? = some v → v ∈ S
  remotes : ∀ s ∈ t.remotes, ∃ p ∈ plans, p.replica = s
  actor : t.actor ≠ t.entropy.seed
  seed : ∀ p ∈ plans, ∀ x, load p.replica .nil = .ok x →
    ∀ i o, x.document.op? i = some o → i.actor ≠ t.entropy.seed

-- A resource of the state was there once, but not in the last state.
def Recreates (plans : List SyncPlan) (t : Turn) : Prop :=
  ∃ ρ, (SyncFieldId.presence ρ).key ∈ t.current.values ∧
    (∀ p ∈ plans.head?, (SyncFieldId.presence ρ).key ∉ p.expectedLocal.values) ∧
    ∃ p ∈ plans, (SyncFieldId.presence ρ).key ∈ p.expectedLocal.values

end Turn

-- The plans of a device that is alone and does not create anew what it has deleted.
inductive Alone (S : Set SyncValue) (scope : SyncScope) : List SyncPlan → Prop
  | start : Alone S scope []
  | sync {plans plan} {t : Turn} (h : Alone S scope plans) (ht : t.Allowed S scope plans)
    (hn : ¬t.Recreates plans) (hp : (t.request scope plans).run = .ok plan) :
    Alone S scope (plan :: plans)

-- The last replica holds all there is, and it shows the last state.
structure Upheld (S : Set SyncValue) (scope : SyncScope) (plans : List SyncPlan) (w : World)
    (r : SyncReplica) : Prop where
  reachable : World.Reachable S w
  mem : r ∈ w
  top : ∀ x ∈ w, x.document ≤ r.document
  opens : ∀ a, openReplica a (plans.head?.map (·.replica)) = .ok { r with actor := a }
  sent : ∀ p ∈ plans, ∃ x ∈ w, p.replica = x.snapshot ∧ x.fixed = false
  unfixed : r.fixed = false
  agrees : ∀ p ∈ plans, p.conflicts = [] ∧ p.effective = p.expectedLocal.values
  whole : ∀ p ∈ plans, p.expectedLocal.Whole scope
  mirrors : ∀ ρ, r.Mirrors ((plans.head?.map (·.effective)).getD ∅) ρ
  seen : ∀ ρ, r.Written (.presence ρ) ↔
    ∃ p ∈ plans, (SyncFieldId.presence ρ).key ∈ p.expectedLocal.values

namespace Upheld

theorem start (S : Set SyncValue) (scope : SyncScope) :
    Upheld S scope [] [new .nil] (new .nil) where
  reachable := World.Reachable.empty.step (.new .nil)
  mem := by simp
  top := by simpa using Document.le_refl _
  opens _ := rfl
  sent := by simp
  unfixed := rfl
  agrees := by simp
  whole := by simp
  mirrors ρ := by constructor <;> simp [Written, new, Document.mem_keys]
  seen ρ := by simp [Written, new, Document.mem_keys]

variable {plans : List SyncPlan}
  (h : Upheld S scope plans w r) {t : Turn} (ht : t.Allowed S scope plans)
include h ht

theorem mem_baseline : k ∈ (t.request scope plans).baseline ↔
    ∃ p ∈ plans.head?, k ∈ p.expectedLocal.values := by
  cases plans
  case nil => simp [Turn.request]
  case cons p ps => simp [Turn.request, (h.agrees p (by simp)).2]

theorem not_seed {i o} (ho : r.document.op? i = some o) : i.actor ≠ t.entropy.seed := by
  have hr := h.opens .nil
  cases plans
  case nil =>
    simp only [head?_nil, Option.map_none, openReplica, Except.ok.injEq] at hr
    have hd := congrArg SyncReplica.document hr
    simp only at hd
    simp [← hd, new] at ho
  case cons p ps =>
    exact ht.seed p (by simp) _ hr i o ho

theorem serves : World.Serves S w (t.request scope plans) where
  replica s hs := by
    obtain ⟨p, hp, rfl⟩ := Option.map_eq_some_iff.mp hs
    have ⟨x, hx, he, _⟩ := h.sent p (mem_of_head? hp)
    exact he ▸ .snapshot hx
  remotes s hs := by
    obtain ⟨p, hp, rfl⟩ := ht.remotes s hs
    have ⟨x, hx, he, _⟩ := h.sent p hp
    exact he ▸ .snapshot hx
  leads x hx := by
    cases (h.opens t.actor).symm.trans hx
    exact World.leads_of_le h.top t.actor
  actor := ht.actor
  seed x hx i o ho := h.not_seed ht (h.top x hx i o ho)
  current := ht.values
  keys k hk := by
    rcases hk with hk | hk
    · have ⟨p, hp, hk⟩ := (h.mem_baseline ht).mp hk
      have ⟨f, hf, _⟩ := (h.whole p (mem_of_head? hp)).supported k hk
      exact ⟨f, hf⟩
    · have ⟨f, hf, _⟩ := ht.state.supported k hk
      exact ⟨f, hf⟩

variable (hS : Collisionless S) (hb : ∀ b, SyncValue.bool b ∈ S)
include hS hb

theorem lone : (t.request scope plans).Lone { r with actor := t.actor } where
  fresh := (h.serves ht).fresh hS hb h.reachable
  current := ht.state
  recorded f hf := by
    have ⟨p, hp, hk⟩ := (h.mem_baseline ht).mp hf
    exact (h.mem_baseline ht).mpr
      ⟨p, hp, (h.whole p (mem_of_head? hp)).recorded.presence_mem hk⟩
  supported f hf := by
    have ⟨p, hp, hk⟩ := (h.mem_baseline ht).mp hf
    exact (h.whole p (mem_of_head? hp)).field hk
  remotes s hs x hx := by
    obtain ⟨p, hp, rfl⟩ := ht.remotes s hs
    have ⟨y, hy, he, hf⟩ := h.sent p hp
    rw [he] at hx
    cases load_snapshot_eq hx
    exact ⟨h.top y hy, hf⟩
  first hn := by
    cases plans
    case cons => simp [Turn.request] at hn
    case nil =>
      refine eq_nil_iff_forall_not_mem.mpr fun s hs => ?_
      have ⟨p, hp, _⟩ := ht.remotes s hs
      simp at hp
  unfixed := h.unfixed
  mirrors ρ := (h.mirrors ρ).withActor t.actor

omit hS hb in
theorem recreates_iff : t.Recreates plans ↔ ∃ ρ, (presence ρ).key ∈ t.current.values ∧
    (presence ρ).key ∉ (t.request scope plans).baseline ∧ r.Written (.presence ρ) := by
  simp only [Turn.Recreates, h.seen, h.mem_baseline ht, not_exists, not_and]

theorem exists_next : ∃ plan ws us q w', (t.request scope plans).run = .ok plan ∧
    (t.request scope plans).Yields plan { r with actor := t.actor } ws us q ∧
    World.Arrives S w w' q := by
  have ⟨plan, r', ws, us, q, w', hrun, hy, ha⟩ := (h.serves ht).run hS hb h.reachable
  cases (h.opens t.actor).symm.trans hy.opened
  exact ⟨plan, ws, us, q, w', hrun, hy, ha⟩

section Next

variable {plan : SyncPlan}
  (hy : (t.request scope plans).Yields plan { r with actor := t.actor } ws us q)
  (ha : World.Arrives S w w' q)
include hy

theorem disputed_or_mirrors (ρ) : q.Disputed (.presence ρ) ∧ t.Recreates plans ∨
    q.Mirrors t.current.values ρ := by
  have hl := h.lone ht hS hb
  have hv := ((h.reachable.coherent hS hb).valid r h.mem).withActor t.actor
  by_cases hc : (presence ρ).key ∈ t.current.values ∧
    (presence ρ).key ∉ (t.request scope plans).baseline ∧ r.Written (.presence ρ)
  case pos =>
    exact .inl ⟨hl.disputed hy.toPrepared hc.1 hc.2.1 hc.2.2, (h.recreates_iff ht).mpr ⟨ρ, hc⟩⟩
  case neg => exact .inr (hl.mirrors_current hy.toPrepared hv fun h₁ h₂ h₃ => hc ⟨h₁, h₂, h₃⟩)

theorem mirrors_next (hn : ¬t.Recreates plans) (ρ) : q.Mirrors t.current.values ρ :=
  (h.disputed_or_mirrors ht hS hb hy ρ).resolve_left fun hd => hn hd.2

theorem seen_next (hn : ¬t.Recreates plans) (ρ) : q.Written (.presence ρ) ↔
    (presence ρ).key ∈ t.current.values ∨ r.Written (.presence ρ) := by
  have hl := h.lone ht hS hb
  constructor
  case mp =>
    intro hw
    rcases hl.known hy.toPrepared hw with hk | hk | hk
    · exact .inr hk
    · have ⟨p, hp, hk⟩ := (h.mem_baseline ht).mp hk
      exact .inr ((h.seen ρ).mpr ⟨p, mem_of_head? hp, hk⟩)
    · exact .inl hk
  case mpr =>
    rintro (hk | hw)
    · exact ((h.mirrors_next ht hS hb hy hn ρ).value (.presence ρ) (.bool true) rfl
        (ht.state.recorded (.presence ρ) hk)).holds.written
    · have ⟨i, o, ho, hk⟩ := Document.mem_keys.mp hw
      exact Document.mem_keys.mpr
        ⟨i, o, (hl.op?_iff hy.toPrepared).mpr (.inl (le_performAll i o ho)), hk⟩

include ha

theorem effective_next : plan.effective = t.current.values := by
  have hq := (ha.reachable.coherent hS hb).within ha.mem
  have hf := (h.lone ht hS hb).fixed hy.toPrepared
  refine (materialize_eq_ok.mp hy.effective).2.unique ?_
  refine Mirrors.materialized hS hq.valid hq.stores hf hb ht.state.recorded (fun ρ => ?_) ht.values _
  exact (h.disputed_or_mirrors ht hS hb hy ρ).imp_left And.left

theorem conflicts_next : plan.conflicts = [] ↔ ¬t.Recreates plans := by
  have hq := (ha.reachable.coherent hS hb).within ha.mem
  have hl := h.lone ht hS hb
  have hf := hl.fixed hy.toPrepared
  constructor
  case mp =>
    intro hn hr
    have ⟨ρ, h₁, h₂, h₃⟩ := (h.recreates_iff ht).mp hr
    have hd := hl.disputed hy.toPrepared h₁ h₂ h₃
    have ⟨c, hc, _⟩ := exists_reported_presence hq.valid.readable (by simp [skips, hf]) hd
    have hm := (mem_conflicts hy.conflicts).mpr hc
    simp [hn] at hm
  case mpr =>
    intro hn
    refine eq_nil_iff_forall_not_mem.mpr fun c hc => ?_
    exact Mirrors.not_reported hS hq.valid hq.stores hf hb (h.mirrors_next ht hS hb hy hn)
      ((mem_conflicts hy.conflicts).mp hc)

theorem next (hn : ¬t.Recreates plans) : Upheld S scope (plan :: plans) w' q where
  reachable := ha.reachable
  mem := ha.mem
  top x hx := by
    rcases ha.below x hx with hx | hx
    · refine Document.le_trans (h.top x hx) fun i o ho => ?_
      exact ((h.lone ht hS hb).op?_iff hy.toPrepared).mpr (.inl (le_performAll i o ho))
    · exact hx
  opens a := by
    simp only [head?_cons, Option.map_some, openReplica, hy.replica]
    exact load_snapshot hy.valid a
  sent := by
    simp only [forall_mem_cons]
    refine ⟨⟨q, ha.mem, hy.replica, (h.lone ht hS hb).fixed hy.toPrepared⟩, fun p hp => ?_⟩
    obtain ⟨x, hx, he⟩ := h.sent p hp
    exact ⟨x, ha.keeps x hx, he⟩
  unfixed := (h.lone ht hS hb).fixed hy.toPrepared
  agrees := by
    simp only [forall_mem_cons, hy.expected]
    exact ⟨⟨(h.conflicts_next ht hS hb hy ha).mpr hn, h.effective_next ht hS hb hy ha⟩, h.agrees⟩
  whole := by
    simp only [forall_mem_cons, hy.expected]
    exact ⟨ht.state, h.whole⟩
  mirrors ρ := by
    simp only [head?_cons, Option.map_some, Option.getD_some,
      h.effective_next ht hS hb hy ha]
    exact h.mirrors_next ht hS hb hy hn ρ
  seen ρ := by
    rw [h.seen_next ht hS hb hy hn, h.seen]
    simp [hy.expected, Turn.request]

end Next

omit ht hS hb in
theorem unknown (ha : ∀ i o, r.document.op? i = some o → i.actor ≠ a) : ∀ p ∈ plans, ∀ x,
    load p.replica .nil = .ok x → ∀ i o, x.document.op? i = some o → i.actor ≠ a := by
  intro p hp x hx i o ho
  have ⟨y, hy, he, _⟩ := h.sent p hp
  rw [he] at hx
  cases load_snapshot_eq hx
  exact ha i o (h.top y hy i o ho)

end Upheld

theorem Alone.upheld (hS : Collisionless S) (hb : ∀ b, SyncValue.bool b ∈ S)
    {scope plans} (h : Alone S scope plans) : ∃ w r, Upheld S scope plans w r := by
  induction h
  case start => exact ⟨_, _, .start S scope⟩
  case sync plans plan t _ ht hn hp hi =>
    have ⟨w, r, hu⟩ := hi
    have ⟨plan', ws, us, q, w', hp', hy, ha⟩ := hu.exists_next ht hS hb
    cases hp.symm.trans hp'
    exact ⟨w', q, hu.next ht hS hb hy ha hn⟩

theorem Upheld.sync (hS : Collisionless S) (hb : ∀ b, SyncValue.bool b ∈ S)
    {scope plans w r} (h : Upheld S scope plans w r) {t : Turn} (ht : t.Allowed S scope plans)
    (hn : ¬t.Recreates plans) : ∃ plan w' q, (t.request scope plans).run = .ok plan ∧
      plan.expectedLocal = t.current ∧ Upheld S scope (plan :: plans) w' q ∧
      ∀ i o, q.document.op? i = some o →
        i.actor = t.actor ∨ i.actor = t.entropy.seed ∨ r.document.op? i = some o := by
  have ⟨plan, ws, us, q, w', hp, hy, ha⟩ := h.exists_next ht hS hb
  refine ⟨plan, w', q, hp, hy.expected, h.next ht hS hb hy ha hn, fun i o ho => ?_⟩
  rcases ((h.lone ht hS hb).op?_iff hy.toPrepared).mp ho with ho | ho
  · rcases op?_performAll ho with ho | ⟨ha, _⟩
    · exact .inr (.inr ho)
    · exact .inl ha
  · exact .inr (.inl (Request.actor_seed ho))

-- A device that is alone keeps its state at every turn. It has a conflict with itself exactly when
-- it creates anew a resource that it has deleted.
theorem alone_never_conflicts {S : Set SyncValue} (hS : Collisionless S)
    (hb : ∀ b, SyncValue.bool b ∈ S) {scope : SyncScope} {plans : List SyncPlan}
    (h : Alone S scope plans) :
    (∀ p ∈ plans, p.conflicts = [] ∧ p.effective = p.expectedLocal.values) ∧
    ∀ t : Turn, t.Allowed S scope plans → ∃ plan, (t.request scope plans).run = .ok plan ∧
      plan.expectedLocal = t.current ∧ plan.effective = t.current.values ∧
      (plan.conflicts = [] ↔ ¬t.Recreates plans) := by
  have ⟨w, r, hu⟩ := h.upheld hS hb
  refine ⟨hu.agrees, fun t ht => ?_⟩
  have ⟨plan, ws, us, q, w', hp, hy, ha⟩ := hu.exists_next ht hS hb
  exact ⟨plan, hp, hy.expected, hu.effective_next ht hS hb hy ha, hu.conflicts_next ht hS hb hy ha⟩

section Clash

namespace Clash

-- A state with a resource of the core, or without one, and a turn with it.
def state (values : SyncValues) : SyncProjection where
  values
  complete := ExtTreeSet.ofList coreKinds

def turn (values : SyncValues) (seed : Uuid) : Turn where
  actor := 1
  current := state values
  entropy := ⟨fun _ => 7, seed, fun _ => 8⟩

omit [Platform] in
theorem whole_state {values : SyncValues} (hv : f.Valid) (hf : fixedCloudSyncField f)
    (h : values = f.full.values ∨ values = ∅) : (state values).Whole {} := by
  have hi : ({} : SyncScope).includes f.resource.kind := by
    simp only [fixedCloudSyncField, Bool.and_eq_true] at hf
    exact includes_of_core {} hf.1
  have hc (kind) (hk : ({} : SyncScope).includes kind) : kind ∈ (state values).complete := by
    simp only [SyncScope.includes, Bool.false_and, Bool.or_false] at hk
    simpa [state] using hk
  rcases h with rfl | rfl
  · refine ⟨recorded_full, fun k hk => ?_, hc⟩
    rcases mem_full.mp hk with rfl | rfl
    · exact ⟨_, fromKey_key hv.presence, hi, supportsField_present hi⟩
    · simp only [fixedCloudSyncField, Bool.and_eq_true] at hf
      exact ⟨_, fromKey_key hv, hi, hf.2⟩
  · exact ⟨fun g hg => by simp [state] at hg, fun k hk => by simp [state] at hk, hc⟩

theorem allowed {plans w r} (hu : Upheld booleans {} plans w r) {values : SyncValues} {seed : Uuid}
    (hv : f.Valid) (hf : fixedCloudSyncField f) (h : values = f.full.values ∨ values = ∅)
    (hs : seed ≠ 1) (hn : ∀ i o, r.document.op? i = some o → i.actor ≠ seed) :
    (turn values seed).Allowed booleans {} plans where
  state := whole_state hv hf h
  values k v hk := by
    rcases h with rfl | rfl
    · exact ⟨true, (getElem?_full.mp hk).2⟩
    · simp [turn, state] at hk
  remotes s hs := by simp [turn] at hs
  actor := hs.symm
  seed := hu.unknown hn

theorem exists_deleted (hv : f.Valid) (hf : fixedCloudSyncField f) : ∃ p₁ p₂ w r,
    (turn f.full.values 11).Allowed booleans {} [] ∧ (turn ∅ 12).Allowed booleans {} [p₁] ∧
    ((turn f.full.values 11).request {} []).run = .ok p₁ ∧
    ((turn ∅ 12).request {} [p₁]).run = .ok p₂ ∧ p₁.expectedLocal = state f.full.values ∧
    p₂.expectedLocal = state ∅ ∧ Alone booleans {} [p₁] ∧ Upheld booleans {} [p₂, p₁] w r ∧
    (turn f.full.values 13).Allowed booleans {} [p₂, p₁] := by
  have hb : ∀ b, SyncValue.bool b ∈ booleans := fun b => ⟨b, rfl⟩
  have hu₀ := Upheld.start booleans {}
  have ht₁ : (turn f.full.values 11).Allowed booleans {} [] :=
    allowed hu₀ hv hf (.inl rfl) (by decide) (by simp [new])
  have hn₁ : ¬(turn f.full.values 11).Recreates [] := by simp [Turn.Recreates]
  obtain ⟨p₁, w₁, r₁, hp₁, he₁, hu₁, hd₁⟩ := hu₀.sync collisionless_booleans hb ht₁ hn₁
  have hd₁ (i o) (ho : r₁.document.op? i = some o) : i.actor = 1 ∨ i.actor = 11 := by
    have h := hd₁ i o ho
    simpa [turn, new] using h
  have ht₂ : (turn ∅ 12).Allowed booleans {} [p₁] := by
    refine allowed hu₁ hv hf (.inr rfl) (by decide) fun i o ho => ?_
    rcases hd₁ i o ho with h | h <;> rw [h] <;> decide
  have hn₂ : ¬(turn ∅ 12).Recreates [p₁] := by simp [Turn.Recreates, turn, state]
  obtain ⟨p₂, w₂, r₂, hp₂, he₂, hu₂, hd₂⟩ := hu₁.sync collisionless_booleans hb ht₂ hn₂
  have ht₃ : (turn f.full.values 13).Allowed booleans {} [p₂, p₁] := by
    refine allowed hu₂ hv hf (.inl rfl) (by decide) fun i o ho => ?_
    rcases hd₂ i o ho with h | h | h
    · simp [h, turn]
    · simp [h, turn]
    · rcases hd₁ i o h with h | h <;> rw [h] <;> decide
  exact ⟨p₁, p₂, w₂, r₂, ht₁, ht₂, hp₁, hp₂, he₁, he₂, .sync .start ht₁ hn₁ hp₁, hu₂, ht₃⟩

end Clash

omit [Platform] in
theorem alone_never_conflicts_deleting : ∃ (_ : Platform) (f : SyncFieldId) (p₁ p₂ : SyncPlan),
    ((Clash.turn f.full.values 11).request {} []).run = .ok p₁ ∧
    ((Clash.turn ∅ 12).request {} [p₁]).run = .ok p₂ ∧
    p₁.conflicts = [] ∧ p₂.conflicts = [] ∧ p₂.effective = ∅ := by
  obtain ⟨f, hv, hf, -⟩ := Clash.exists_field
  generalize Platform.sample = platform
  have ⟨p₁, p₂, _, _, _, ht₂, hp₁, hp₂, _, _, ha, _⟩ := Clash.exists_deleted hv hf
  have ⟨hall, hnext⟩ := alone_never_conflicts collisionless_booleans (fun b => ⟨b, rfl⟩) ha
  have ⟨p₂', hp₂', _, he, hc⟩ := hnext _ ht₂
  cases hp₂.symm.trans hp₂'
  refine ⟨platform, f, p₁, p₂, hp₁, hp₂, (hall p₁ (by simp)).1, hc.mpr ?_, he⟩
  simp [Turn.Recreates]

omit [Platform] in
-- A resource is created, deleted and created again: its seed is concurrent to its deletion.
theorem recreation_conflicts : ∃ (_ : Platform) (f : SyncFieldId) (p₁ p₂ p₃ : SyncPlan),
    (Clash.turn f.full.values 11).Allowed booleans {} [] ∧
    (Clash.turn ∅ 12).Allowed booleans {} [p₁] ∧
    (Clash.turn f.full.values 13).Allowed booleans {} [p₂, p₁] ∧
    ((Clash.turn f.full.values 11).request {} []).run = .ok p₁ ∧
    ((Clash.turn ∅ 12).request {} [p₁]).run = .ok p₂ ∧
    ((Clash.turn f.full.values 13).request {} [p₂, p₁]).run = .ok p₃ ∧ p₃.conflicts ≠ [] := by
  obtain ⟨f, hv, hf, -⟩ := Clash.exists_field
  generalize Platform.sample = platform
  have hb : ∀ b, SyncValue.bool b ∈ booleans := fun b => ⟨b, rfl⟩
  have ⟨p₁, p₂, w, r, ht₁, ht₂, hp₁, hp₂, he₁, he₂, _, hu, ht₃⟩ := Clash.exists_deleted hv hf
  have ⟨p₃, _, _, _, _, hp₃, hy, ha⟩ := hu.exists_next ht₃ collisionless_booleans hb
  refine ⟨platform, f, p₁, p₂, p₃, ht₁, ht₂, ht₃, hp₁, hp₂, hp₃, fun hc => ?_⟩
  refine (hu.conflicts_next ht₃ collisionless_booleans hb hy ha).mp hc ⟨f.resource, ?_, ?_, ?_⟩
  · exact SyncFieldId.mem_full.mpr (.inl rfl)
  · simp [he₂, Clash.state]
  · exact ⟨p₁, by simp, by simp only [he₁, Clash.state]; exact SyncFieldId.mem_full.mpr (.inl rfl)⟩

end Clash

end NyaTerm

import NyaTerm.Sync.Theorems.Conflicts

open Std Causal

namespace NyaTerm

variable {r : SyncReplica}

variable [Platform]

theorem isReferent_digest (bytes : List UInt8) : IsReferent (digest bytes) :=
  .inr (digest_hex bytes)

theorem digest_ne_deleted (bytes : List UInt8) : digest bytes ≠ deleted := by
  intro h
  have hl := (digest_hex bytes).1
  rw [h] at hl
  exact absurd hl (by decide)

omit [Platform] in
theorem SyncValue.isBoolean_iff {v : SyncValue} : v.decode.isBoolean ↔ ∃ b, v = bool b := by
  constructor
  case mp =>
    have ⟨v⟩ := v
    intro h
    cases v <;> simp [decode, Json.isBoolean, Json.asBool] at h
    exact ⟨_, rfl⟩
  case mpr =>
    rintro ⟨b, rfl⟩
    simp [Json.isBoolean, Json.asBool]

namespace SyncReplica

-- The presence register of a resource is written and holds only booleans.
structure PresenceValid (r : SyncReplica) (ρ : SyncResourceId) : Prop where
  written : r.Written (.presence ρ)
  booleans : ∀ d, r.Holds (.presence ρ) d → ∃ b, r.values[d]? = some (.bool b)

-- Every value is held under its digest.
def Digested (r : SyncReplica) : Prop :=
  ∀ (id : String) v, r.values[id]? = some v → digest v.bytes = id

-- What `validate` establishes.
structure Valid (r : SyncReplica) : Prop where
  digests : r.Digested
  readable : r.Readable
  presences : ∀ f, r.Written f → ¬r.skips (.presence f.resource) → r.PresenceValid f.resource

theorem Digested.reads (h : r.Digested) {d v} (hv : r.values[d]? = some v) : r.Reads d (some v) :=
  .value (fun hd => digest_ne_deleted v.bytes ((h d v hv).trans hd)) hv

theorem Gone.only (hr : r.Digested) {ρ} (h : r.Gone ρ) :
    r.Only (.presence ρ) (digest (SyncValue.bool false).bytes) := by
  have ⟨d, v, ho, hv, hb⟩ := h
  have hd := hr d v hv
  rw [SyncValue.eq_bool hb] at hd
  exact hd ▸ ho

omit [Platform] in
theorem PresenceValid.decided {ρ} (h : r.PresenceValid ρ) : r.Decided ρ where
  written := h.written
  boolean d ho := by
    have ⟨b, hb⟩ := h.booleans d ho.holds
    exact ⟨_, b, hb, SyncValue.decode_bool b⟩

theorem Valid.consistent (h : r.Valid) : r.Consistent where
  readable := h.readable
  decided f hw hs := (h.presences f hw hs).decided

omit [Platform] in
theorem validatePresence_eq_ok {R} (h : r.registers = .ok R) {ρ fields} (hρ : R[ρ]? = some fields) :
    r.validatePresence ρ fields = .ok () ↔
      r.skips (.presence ρ) ∨ r.PresenceValid ρ := by
  have hr := exists_registers.mp ⟨R, h⟩
  unfold validatePresence
  split
  case isTrue hs => simp [hs]
  case isFalse hs =>
    simp only [hs, Bool.false_eq_true, false_or]
    cases hp : fields[SyncFieldId.present]?
    case none =>
      simp only [reduceCtorEq, false_iff]
      intro hv
      have ⟨cs, hc⟩ := exists_candidates.mpr (hr.fields _ hv.written)
      simp [(getElem?_registers h hρ).mpr ⟨hv.written, hc⟩] at hp
    case some cs =>
      have ⟨hw, hc⟩ := (getElem?_registers h hρ).mp hp
      have hne : cs ≠ [] := by
        rintro rfl
        have ⟨d, hd⟩ := exists_holds hw (hr.fields _ hw)
        simpa using (holds_iff hc).mp hd
      have hb : (∀ c ∈ cs, ∃ b, r.values[c.value]? = some (.bool b)) ↔ r.PresenceValid ρ := by
        constructor
        case mp =>
          intro hb
          refine ⟨hw, fun d hd => ?_⟩
          have ⟨c, hm, he⟩ := (holds_iff hc).mp hd
          exact he ▸ hb c hm
        case mpr => exact fun hv c hm => hv.booleans _ ((holds_iff hc).mpr ⟨c, hm, rfl⟩)
      rw [← hb]
      cases cs
      case nil => contradiction
      case cons c cs =>
        simp only [Fallible.forM_eq_ok, Fallible.bind_eq_ok, candidateValue_eq_ok]
        refine forall₂_congr fun c _ => ?_
        constructor
        case mp =>
          rintro ⟨v, hv, hx⟩
          split at hx
          case isTrue hbool =>
            have ⟨b, hb⟩ := SyncValue.isBoolean_iff.mp hbool
            exact ⟨b, hb ▸ hv⟩
          case isFalse => contradiction
        case mpr =>
          rintro ⟨b, hv⟩
          exact ⟨_, hv, if_pos (SyncValue.isBoolean_iff.mpr ⟨b, rfl⟩)⟩

theorem validate_eq_ok : r.validate = .ok () ↔ r.Valid := by
  unfold validate
  split
  case isTrue ha =>
    simp only [reduceCtorEq, false_iff]
    intro hv
    simp only [List.any_eq_true, Prod.exists, ExtTreeMap.mem_toList_iff_getElem?_eq_some,
      decide_eq_true_eq] at ha
    obtain ⟨id, v, hi, hn⟩ := ha
    exact hn (hv.digests id v hi)
  case isFalse ha =>
    have ha : r.Digested := by
      simpa [Digested] using ha
    simp only [Fallible.bind_eq_ok, Fallible.forM_eq_ok, Prod.forall,
      ExtTreeMap.mem_toList_iff_getElem?_eq_some]
    constructor
    case mp =>
      rintro ⟨R, hR, hp⟩
      refine ⟨ha, exists_registers.mp ⟨R, hR⟩, fun f hw hs => ?_⟩
      obtain ⟨fields, hρ⟩ := (mem_registers hR).mpr ⟨f, hw, rfl⟩
      exact ((validatePresence_eq_ok hR hρ).mp (hp _ _ hρ)).resolve_left hs
    case mpr =>
      intro hv
      obtain ⟨R, hR⟩ := exists_registers.mpr hv.readable
      refine ⟨R, hR, fun ρ fields hρ => (validatePresence_eq_ok hR hρ).mpr ?_⟩
      obtain ⟨f, hw, hf⟩ := (mem_registers hR).mp ⟨fields, hρ⟩
      subst hf
      by_cases hs : r.skips (.presence f.resource)
      · exact .inl hs
      · exact .inr (hv.presences f hw hs)

theorem load_eq_ok {a r} : load s a = .ok r ↔
    (s.schema = 4 ∨ s.schema = 5) ∧ Platform.loadDocument s.document = some r.document ∧
      r.actor = a ∧ r.values = s.values ∧ r.fixed = (s.schema == 5) ∧ r.Valid := by
  unfold load
  split
  case isTrue hs =>
    simp only [reduceCtorEq, false_iff]
    omega
  case isFalse hs =>
    have hs : s.schema = 4 ∨ s.schema = 5 := by omega
    cases hd : Platform.loadDocument s.document
    case none => simp
    case some d =>
      simp only [Fallible.bind_eq_ok, Fallible.pure_eq_ok]
      constructor
      case mp =>
        rintro ⟨_, hv, rfl⟩
        exact ⟨hs, rfl, rfl, rfl, rfl, validate_eq_ok.mp hv⟩
      case mpr =>
        rintro ⟨_, hd, rfl, hv, hf, h⟩
        cases hd
        have : r = ⟨r.document, r.actor, s.values, s.schema == 5⟩ := by
          ext1 <;> simp [hv, hf]
        exact ⟨(), this ▸ validate_eq_ok.mpr h, this.symm⟩

omit [Platform] in
theorem readable_withActor : ({ r with actor := a } : SyncReplica).Readable ↔ r.Readable :=
  ⟨fun ⟨h₁, h₂⟩ => ⟨h₁, h₂⟩, fun ⟨h₁, h₂⟩ => ⟨h₁, h₂⟩⟩

omit [Platform] in
theorem holds_withActor {f d} : ({ r with actor := a } : SyncReplica).Holds f d ↔ r.Holds f d :=
  Iff.rfl

theorem Valid.withActor (h : r.Valid) (a : Uuid) :
    ({ r with actor := a } : SyncReplica).Valid where
  digests := h.digests
  readable := readable_withActor.mpr h.readable
  presences f hw hs := ⟨(h.presences f hw hs).written, (h.presences f hw hs).booleans⟩

theorem load_snapshot (h : r.Valid) (a : Uuid) : load r.snapshot a = .ok { r with actor := a } := by
  rw [load_eq_ok]
  refine ⟨?_, Platform.loadDocument_save _, rfl, rfl, ?_, h.withActor a⟩ <;>
    cases hf : r.fixed <;> simp [snapshot, hf]

theorem valid_new (a : Uuid) : (new a).Valid where
  digests := by simp [new, Digested]
  readable := ⟨by simp [new, Document.mem_keys], by simp [Written, new, Document.mem_keys]⟩
  presences := by simp [Written, new, Document.mem_keys]

end SyncReplica
end NyaTerm

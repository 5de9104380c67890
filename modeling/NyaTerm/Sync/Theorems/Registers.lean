import NyaTerm.Sync.Replica

open Std Causal

namespace NyaTerm

open Fallible

-- A referent is a tombstone or has the form of a digest.
def IsReferent (d : String) : Prop :=
  d = deleted ∨ (d.toList.length = 64 ∧ ∀ c ∈ d.toList, Text.isHex c)

theorem isReferent_deleted : IsReferent deleted := .inl rfl

theorem slash_not_mem_referent (h : IsReferent d) : '/' ∉ d.toList := by
  cases h
  case inl h => rw [h]; decide
  case inr h => exact fun hc => absurd (h.2 _ hc) (by decide)

theorem referent_reference (h : IsReferent d) (u : Uuid) : (reference d u).referent = some d := by
  have hs : Text.splitOnce '/' (d.toList ++ '/' :: u.toText) = some (d.toList, u.toText) :=
    Text.splitOnce_append (slash_not_mem_referent h)
  have hd : d.toList = deleted.toList ∨ (d.toList.length = 64 ∧ d.toList.all Text.isHex) := by
    simpa [IsReferent, String.toList_inj] using h
  simp only [reference, ScalarValue.referent, String.toList_ofList, hs, Uuid.parse_toText,
    Option.bind_eq_bind, Option.bind_some, if_pos hd, String.ofList_toList]

theorem reference_injective (h : reference d u = reference e v) : d = e ∧ u = v := by
  have hl (u : Uuid) : u.toText.length = 36 :=
    Uuid.length_hyphenate (Text.length_toHex 32 u.toNat)
  have ht : d.toList ++ '/' :: u.toText = e.toList ++ '/' :: v.toText :=
    String.ofList_injective (ScalarValue.str.inj h)
  have ⟨hd, hu⟩ := List.append_inj' ht (by simp [hl])
  have hp := Uuid.parse_toText u
  rw [(List.cons.inj hu).2, Uuid.parse_toText] at hp
  exact ⟨String.toList_inj.mp hd, (Option.some.inj hp).symm⟩

section Distinct

theorem distinct_eq_length (cs : List SyncCandidate) : ∃ ds : List String, distinct cs = ds.length ∧
    ds.Nodup ∧ ∀ d, d ∈ ds ↔ ∃ c ∈ cs, c.value = d := by
  refine ⟨(ExtTreeSet.ofList (cs.map (·.value)) : BTreeSet String).toList, ?_, ?_, ?_⟩
  · exact ExtTreeSet.length_toList.symm
  · exact ExtTreeSet.ordered_toList.imp fun {a b} hl he => by subst he; simp at hl
  · simp

theorem one_lt_distinct : 1 < distinct cs ↔ ∃ a ∈ cs, ∃ b ∈ cs, a.value ≠ b.value := by
  have ⟨ds, hl, hn, hd⟩ := distinct_eq_length cs
  have hi : (∃ a ∈ cs, ∃ b ∈ cs, a.value ≠ b.value) ↔ ∃ d ∈ ds, ∃ e ∈ ds, d ≠ e := by
    simp only [hd]
    constructor
    case mp =>
      rintro ⟨a, ha, b, hb, h⟩
      exact ⟨_, ⟨a, ha, rfl⟩, _, ⟨b, hb, rfl⟩, h⟩
    case mpr =>
      rintro ⟨_, ⟨a, ha, rfl⟩, _, ⟨b, hb, rfl⟩, h⟩
      exact ⟨a, ha, b, hb, h⟩
  rw [hl, hi]
  match ds, hn with
  | [], _ => simp
  | [d], _ => simp
  | d :: e :: _, hn =>
    have hne : d ≠ e := by
      rintro rfl
      simp at hn
    simp only [List.length_cons, Nat.lt_add_left_iff_pos, Nat.zero_lt_succ, true_iff]
    exact ⟨d, by simp, e, by simp, hne⟩

theorem distinct_eq_one : distinct cs = 1 ↔ ∃ a ∈ cs, ∀ b ∈ cs, b.value = a.value := by
  have ⟨ds, hl, _, hd⟩ := distinct_eq_length cs
  rw [hl, List.length_eq_one_iff]
  constructor
  case mp =>
    rintro ⟨d, rfl⟩
    have ⟨a, ha, he⟩ := (hd d).mp (by simp)
    refine ⟨a, ha, fun b hb => ?_⟩
    rw [he, ← List.mem_singleton]
    exact (hd b.value).mpr ⟨b, hb, rfl⟩
  case mpr =>
    rintro ⟨a, ha, hu⟩
    have hs := (hd a.value).mpr ⟨a, ha, rfl⟩
    by_contra hc
    have hlt : 1 < distinct cs := by
      have := List.length_pos_of_mem hs
      have : ds.length ≠ 1 := mt List.length_eq_one_iff.mp hc
      omega
    have ⟨b, hb, c, hc, hne⟩ := one_lt_distinct.mp hlt
    exact hne ((hu b hb).trans (hu c hc).symm)

end Distinct

namespace SyncReplica

-- A referent can be read from a register: it is held, or the register is outside of what a fixed
-- replica looks at.
def Resolves (r : SyncReplica) (f : SyncFieldId) (d : String) : Prop :=
  d = deleted ∨ d ∈ r.values ∨ r.skips f

variable {r : SyncReplica}

theorem candidate_eq_ok {f v i c} : r.candidate f (v, i) = .ok c ↔
    v.referent = some c.value ∧ c.operation = operationText i ∧ r.Resolves f c.value := by
  unfold candidate Resolves skips
  cases hv : v.referent
  case none => simp [hv]
  case some d =>
    cases c
    grind

theorem candidate_eq_error {f v i}
    (h : ∀ d, v.referent = some d → ¬r.Resolves f d) :
    r.candidate f (v, i) = .error .invalidReplica := by
  cases hc : r.candidate f (v, i)
  case ok c =>
    have ⟨hv, _, hr⟩ := candidate_eq_ok.mp hc
    exact absurd hr (h _ hv)
  case error e =>
    simp only [candidate] at hc
    split at hc
    case h_1 => exact hc.symm
    case h_2 => split at hc <;> simp_all

-- The register of a field shows a referent.
def Holds (r : SyncReplica) (f : SyncFieldId) (d : String) : Prop :=
  ∃ i v, r.document.Visible f.key i v ∧ v.referent = some d

-- All that a register shows can be read.
def ReadableAt (r : SyncReplica) (f : SyncFieldId) : Prop :=
  ∀ i v, r.document.Visible f.key i v → ∃ d, v.referent = some d ∧ r.Resolves f d

variable {f cs}

theorem candidates_eq_ok : r.candidates f = .ok cs ↔
    ∃ ds, (r.document.getAll f.key).mapM (r.candidate f) = .ok ds ∧
      ds.insertionSort (·.operation ≤ ·.operation) = cs := by
  simp only [candidates, bind_eq_ok, pure_eq_ok]

theorem exists_candidates {f} :
    (∃ cs, r.candidates f = .ok cs) ↔ r.ReadableAt f := by
  have hm : (∃ cs, r.candidates f = .ok cs) ↔
      ∃ ds, (r.document.getAll f.key).mapM (r.candidate f) = .ok ds := by
    simp [candidates_eq_ok]
  rw [hm, exists_mapM_eq_ok]
  simp only [Prod.forall, Document.mem_getAll, candidate_eq_ok, ReadableAt]
  constructor
  case mp =>
    intro h i v hv
    obtain ⟨c, hr, _, hs⟩ := h v i hv
    exact ⟨c.value, hr, hs⟩
  case mpr =>
    intro h v i hv
    obtain ⟨d, hr, hs⟩ := h i v hv
    exact ⟨⟨operationText i, d⟩, hr, rfl, hs⟩

section Candidates

variable (h : r.candidates f = .ok cs)
include h

theorem mem_candidates {c} : c ∈ cs ↔ ∃ i v, r.document.Visible f.key i v ∧
    v.referent = some c.value ∧ c.operation = operationText i := by
  obtain ⟨ds, hd, hs⟩ := candidates_eq_ok.mp h
  have hr := exists_candidates.mp ⟨_, h⟩
  rw [← hs, List.mem_insertionSort, mem_of_mapM hd]
  simp only [Prod.exists, Document.mem_getAll, candidate_eq_ok]
  constructor
  case mp =>
    rintro ⟨v, i, hv, hc, ho, _⟩
    exact ⟨i, v, hv, hc, ho⟩
  case mpr =>
    rintro ⟨i, v, hv, hc, ho⟩
    obtain ⟨d, hd, hs⟩ := hr i v hv
    cases hc ▸ hd
    exact ⟨v, i, hv, hc, ho, hs⟩

theorem holds_iff {d} : r.Holds f d ↔ ∃ c ∈ cs, c.value = d := by
  simp only [mem_candidates h, Holds]
  constructor
  case mp =>
    rintro ⟨i, v, hv, hd⟩
    exact ⟨⟨operationText i, d⟩, ⟨i, v, hv, hd, rfl⟩, rfl⟩
  case mpr =>
    rintro ⟨c, ⟨i, v, hv, hd, _⟩, rfl⟩
    exact ⟨i, v, hv, hd⟩

theorem candidates_resolve {c} (hc : c ∈ cs) : r.Resolves f c.value := by
  have ⟨i, v, hv, hd, _⟩ := (mem_candidates h).mp hc
  have ⟨d, hd', hs⟩ := exists_candidates.mp ⟨_, h⟩ i v hv
  cases hd ▸ hd'
  exact hs

end Candidates

-- Candidates are determined by what a register shows and by which of it can be read.
theorem candidates_congr {s : SyncReplica} (h : r.document.getAll f.key = s.document.getAll g.key)
    (hr : ∀ d, r.Holds f d → (r.Resolves f d ↔ s.Resolves g d)) :
    r.candidates f = s.candidates g := by
  have hc : ∀ x ∈ r.document.getAll f.key, r.candidate f x = s.candidate g x := by
    rintro ⟨v, i⟩ hx
    rw [Document.mem_getAll] at hx
    by_cases hd : ∃ d, v.referent = some d ∧ r.Resolves f d
    case pos =>
      have ⟨d, hv, hs⟩ := hd
      have hs' := (hr d ⟨i, v, hx, hv⟩).mp hs
      have h₁ : r.candidate f (v, i) = .ok ⟨operationText i, d⟩ := candidate_eq_ok.mpr ⟨hv, rfl, hs⟩
      have h₂ : s.candidate g (v, i) = .ok ⟨operationText i, d⟩ := candidate_eq_ok.mpr ⟨hv, rfl, hs'⟩
      rw [h₁, h₂]
    case neg =>
      have hd' : ∀ d, v.referent = some d → ¬r.Resolves f d := fun d hv hs => hd ⟨d, hv, hs⟩
      have hs' : ∀ d, v.referent = some d → ¬s.Resolves g d :=
        fun d hv => (hr d ⟨i, v, hx, hv⟩).not.mp (hd' d hv)
      rw [candidate_eq_error hd', candidate_eq_error hs']
  rw [candidates, candidates, ← h, mapM_congr hc]

section Lookup

def lookup (registers : Registers) (f : SyncFieldId) : Option (List SyncCandidate) :=
  registers[f.resource]?.bind (·[f.field]?)

theorem getElem?_collect (entries : List (SyncFieldId × List SyncCandidate)) (ρ : SyncResourceId) :
    (collect entries)[ρ]? =
      let fields := entries.filter (·.1.resource = ρ)
      if fields.isEmpty then none
      else some (Patch.apply ∅ (fields.map fun (f, cs) => (f.field, some cs))) := by
  have hi (m : BTreeMap String (List SyncCandidate)) (k cs) :
      m.insert k cs = m.alter k fun _ => some cs := by
    apply ExtTreeMap.ext_getElem?
    simp [ExtTreeMap.getElem?_insert, ExtTreeMap.getElem?_alter]
  have hf (es : List (SyncFieldId × List SyncCandidate)) (b) :
      es.foldl (fun b x => some ((b.getD ∅).insert x.1.field x.2)) b =
        if es.isEmpty then b
        else some (Patch.apply (b.getD ∅) (es.map fun (f, cs) => (f.field, some cs))) := by
    induction es generalizing b
    case nil => rfl
    case cons e es hs =>
      rw [List.foldl_cons, hs, hi]
      cases es <;> simp
  simp [collect, Index.getElem?_build, hf]

theorem lookup_collect (hu : ∀ f cs cs', (f, cs) ∈ entries → (f, cs') ∈ entries → cs = cs') :
    lookup (collect entries) f = some cs ↔ (f, cs) ∈ entries := by
  let updates := (entries.filter (·.1.resource = f.resource)).map fun (g, cs) => (g.field, some cs)
  have hm (o : Option (List SyncCandidate)) :
      (f.field, o) ∈ updates ↔ ∃ cs, o = some cs ∧ (f, cs) ∈ entries := by
    simp only [updates, List.mem_map, List.mem_filter, decide_eq_true_eq, Prod.exists,
      Prod.mk.injEq]
    constructor
    case mp =>
      rintro ⟨g, cs, ⟨hg, hr⟩, hn, rfl⟩
      have : g = f := by cases g; cases f; simp_all
      exact ⟨cs, rfl, this ▸ hg⟩
    case mpr =>
      rintro ⟨cs, rfl, hf⟩
      exact ⟨f, cs, ⟨hf, rfl⟩, rfl, rfl⟩
  rw [lookup, getElem?_collect]
  by_cases hn : ∃ cs, (f, cs) ∈ entries
  case pos =>
    obtain ⟨ds, hd⟩ := hn
    have ha : (Patch.apply ∅ updates : BTreeMap String (List SyncCandidate))[f.field]? = some ds := by
      refine Patch.getElem?_apply_of_mem ((hm _).mpr ⟨ds, rfl, hd⟩) fun o ho => ?_
      obtain ⟨cs, hcs, hc⟩ := (hm o).mp ho
      rw [hcs, hu f cs ds hc hd]
    have he : (entries.filter (·.1.resource = f.resource)).isEmpty = false := by
      simp only [List.isEmpty_eq_false_iff, ne_eq, List.filter_eq_nil_iff, not_forall]
      exact ⟨(f, ds), hd, by simp⟩
    simp only [he, Bool.false_eq_true, if_false, Option.bind_some]
    rw [ha, Option.some.injEq]
    exact ⟨fun h => h ▸ hd, fun h => hu f ds cs hd h⟩
  case neg =>
    have ha : (Patch.apply ∅ updates : BTreeMap String (List SyncCandidate))[f.field]? = none := by
      rw [Patch.getElem?_apply_of_not_mem, ExtTreeMap.getElem?_empty]
      intro o ho
      obtain ⟨cs, _, hc⟩ := (hm o).mp ho
      exact hn ⟨cs, hc⟩
    constructor
    case mp =>
      simp only
      split
      · simp
      · simp only [Option.bind_some]
        intro h
        exact absurd (ha ▸ h) (by simp)
    case mpr => exact fun h => absurd ⟨cs, h⟩ hn

end Lookup

-- Some operation of the document is on the register of the field.
def Written (r : SyncReplica) (f : SyncFieldId) : Prop :=
  f.key ∈ r.document.keys

theorem written_iff {f} : r.Written f ↔ ∃ i v, r.document.Visible f.key i v := by
  rw [Written, Document.mem_keys]
  constructor
  case mp =>
    rintro ⟨i, p, hp, hk⟩
    exact hk ▸ Document.exists_visible hp
  case mpr =>
    rintro ⟨i, v, ⟨p, hp, hk, _⟩, _⟩
    exact ⟨i, p, hp, hk⟩

theorem Holds.written {f d} : r.Holds f d → r.Written f
  | ⟨i, v, hv, _⟩ => written_iff.mpr ⟨i, v, hv⟩

theorem exists_holds {f} (h : r.Written f) (hr : r.ReadableAt f) :
    ∃ d, r.Holds f d := by
  have ⟨i, v, hv⟩ := written_iff.mp h
  have ⟨d, hd, _⟩ := hr i v hv
  exact ⟨d, i, v, hv, hd⟩

-- Every register is that of a field and can be read.
structure Readable (r : SyncReplica) : Prop where
  keys : ∀ k ∈ r.document.keys, ∃ f : SyncFieldId, f.Valid ∧ f.key = k
  fields : ∀ f, r.Written f → r.ReadableAt f

theorem Readable.valid (h : r.Readable) {f} (hw : r.Written f) : f.Valid := by
  have ⟨g, hv, hk⟩ := h.keys _ hw
  exact SyncFieldId.key_injective hk ▸ hv

theorem Readable.readableAt (h : r.Readable) (f) : r.ReadableAt f :=
  fun i v hv => h.fields f (written_iff.mpr ⟨i, v, hv⟩) i v hv

theorem mem_fields {fs} (h : r.fields = .ok fs) {f} :
    f ∈ fs ↔ f.Valid ∧ r.Written f := by
  rw [mem_of_mapM h]
  simp only [SyncFieldId.parseKey_eq_ok, Written]
  constructor
  case mp =>
    rintro ⟨k, hk, hv, rfl⟩
    exact ⟨hv, hk⟩
  case mpr =>
    rintro ⟨hv, hk⟩
    exact ⟨f.key, hk, hv, rfl⟩

theorem exists_fields :
    (∃ fs, r.fields = .ok fs) ↔ ∀ k ∈ r.document.keys, ∃ f : SyncFieldId, f.Valid ∧ f.key = k := by
  simp only [fields, exists_mapM_eq_ok, SyncFieldId.parseKey_eq_ok]

theorem registers_eq_ok {R} : r.registers = .ok R ↔ ∃ fs entries,
    r.fields = .ok fs ∧ fs.mapM (fun f => return (f, ← r.candidates f)) = .ok entries ∧
    collect entries = R := by
  simp only [registers, bind_eq_ok, pure_eq_ok]
  exact exists_congr fun fs => exists_and_left.symm

theorem exists_registers : (∃ R, r.registers = .ok R) ↔ r.Readable := by
  constructor
  case mp =>
    rintro ⟨R, h⟩
    have ⟨fs, es, hf, he, _⟩ := registers_eq_ok.mp h
    have hk := exists_fields.mp ⟨fs, hf⟩
    refine ⟨hk, fun f hw => ?_⟩
    have ⟨g, hv, hg⟩ := hk _ hw
    cases SyncFieldId.key_injective hg
    have ⟨e, hf'⟩ := exists_mapM_eq_ok.mp ⟨es, he⟩ f ((mem_fields hf).mpr ⟨hv, hw⟩)
    simp only [bind_eq_ok] at hf'
    have ⟨cs, hc, _⟩ := hf'
    exact exists_candidates.mp ⟨cs, hc⟩
  case mpr =>
    intro h
    have ⟨fs, hf⟩ := exists_fields.mpr h.keys
    have ⟨es, he⟩ : ∃ es, fs.mapM (fun f => return (f, ← r.candidates f)) = .ok es := by
      rw [exists_mapM_eq_ok]
      intro f hm
      have ⟨cs, hc⟩ := exists_candidates.mpr (h.fields f ((mem_fields hf).mp hm).2)
      exact ⟨(f, cs), by simp [hc, bind, Except.bind, pure, Except.pure]⟩
    exact ⟨_, registers_eq_ok.mpr ⟨fs, es, hf, he, rfl⟩⟩

theorem mem_entries (hr : r.Readable) {fs entries} (hf : r.fields = .ok fs)
    (he : fs.mapM (fun f => return (f, ← r.candidates f)) = .ok entries) :
    (f, cs) ∈ entries ↔ r.Written f ∧ r.candidates f = .ok cs := by
  rw [mem_of_mapM he]
  simp only [bind_eq_ok, pure_eq_ok, Prod.mk.injEq, mem_fields hf]
  constructor
  case mp =>
    rintro ⟨g, ⟨_, hw⟩, ds, hc, rfl, rfl⟩
    exact ⟨hw, hc⟩
  case mpr =>
    rintro ⟨hw, hc⟩
    exact ⟨f, ⟨hr.valid hw, hw⟩, cs, hc, rfl, rfl⟩

theorem lookup_registers {R} (h : r.registers = .ok R) :
    lookup R f = some cs ↔ r.Written f ∧ r.candidates f = .ok cs := by
  have ⟨fs, es, hf, he, hR⟩ := registers_eq_ok.mp h
  have hm {f cs} : (f, cs) ∈ es ↔ r.Written f ∧ r.candidates f = .ok cs :=
    mem_entries (exists_registers.mp ⟨R, h⟩) hf he
  rw [← hR, lookup_collect, hm]
  intro f cs cs' h₁ h₂
  exact Except.ok.inj ((hm.mp h₁).2.symm.trans (hm.mp h₂).2)

theorem getElem?_registers {R} (h : r.registers = .ok R) {ρ fields}
    (hρ : R[ρ]? = some fields) {name cs} :
    fields[name]? = some cs ↔ r.Written ⟨ρ, name⟩ ∧ r.candidates ⟨ρ, name⟩ = .ok cs := by
  rw [← lookup_registers h, lookup]
  simp [hρ]

theorem mem_registers {R} (h : r.registers = .ok R) {ρ} :
    (∃ fields, R[ρ]? = some fields) ↔ ∃ f, r.Written f ∧ f.resource = ρ := by
  have hr := exists_registers.mp ⟨R, h⟩
  constructor
  case mp =>
    rintro ⟨fields, hρ⟩
    obtain ⟨fs, es, hf, he, hR⟩ := registers_eq_ok.mp h
    rw [← hR, getElem?_collect] at hρ
    simp only [Option.ite_none_left_eq_some, List.isEmpty_iff, List.filter_eq_nil_iff,
      not_forall] at hρ
    obtain ⟨⟨⟨f, cs⟩, hm, hfρ⟩, _⟩ := hρ
    exact ⟨f, ((mem_entries hr hf he).mp hm).1, by simpa using hfρ⟩
  case mpr =>
    rintro ⟨f, hw, rfl⟩
    obtain ⟨cs, hc⟩ := exists_candidates.mpr (hr.fields f hw)
    have hl := (lookup_registers h).mpr ⟨hw, hc⟩
    obtain ⟨fields, hf, _⟩ := Option.bind_eq_some_iff.mp hl
    exact ⟨fields, hf⟩

end SyncReplica
end NyaTerm

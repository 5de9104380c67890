import Mathlib.Data.List.Dedup
import NyaTerm.Sync.Theorems.Merge

open Std Causal

namespace NyaTerm.SyncReplica

variable [Platform]

section Resolve

variable {r : SyncReplica}

omit [Platform] in
theorem not_admits_iff : (!scope.includes f.resource.kind || r.skips f ||
    !supportsField f.resource.kind f.field) = true ↔ ¬r.Admits scope f := by
  simp only [Bool.or_eq_true, Bool.not_eq_true', Bool.eq_false_iff, ne_eq]
  constructor
  case mp =>
    rintro ((h | h) | h) ha
    · exact h ha.included
    · exact ha.seen h
    · exact h ha.supported
  case mpr =>
    intro h
    by_contra hc
    simp only [not_or, not_not] at hc
    exact h ⟨hc.1.1, hc.1.2, hc.2⟩

-- A resolution that succeeds writes the chosen candidate to the register that was in conflict.
theorem resolve_eq_ok : r.resolve c x scope u = (.ok (), r') ↔
    r.Admits scope c.field ∧ r.candidates c.field = .ok c.candidates ∧ x ∈ c.candidates ∧
      ∃ v, r.Reads x.value v ∧ r.perform ⟨c.field, v⟩ u = r' := by
  unfold resolve
  split
  case isTrue hn =>
    rw [not_admits_iff] at hn
    simp [hn]
  case isFalse hn =>
    rw [not_admits_iff, not_not] at hn
    cases hc : r.candidates c.field
    case error => simp
    case ok cs =>
      simp only [hn, true_and, Except.ok.injEq]
      split
      case isTrue hs => grind
      case isFalse hs =>
        simp only [ne_eq, not_or, not_not] at hs
        simp only [hs, true_and]
        split
        case isTrue hd =>
          rw [hd]
          constructor
          case mp =>
            intro h
            exact ⟨none, .tombstone, congrArg Prod.snd h⟩
          case mpr =>
            rintro ⟨v, hv, h⟩
            cases hv.unique .tombstone
            exact congrArg _ h
        case isFalse hd =>
          simp only [reads_of_ne hd]
          split
          case h_1 e he =>
            simp only [Prod.mk.injEq, reduceCtorEq, false_and, false_iff]
            rintro ⟨_, ⟨w, hw, _⟩, _⟩
            simp [candidateValue_eq_ok.mpr hw] at he
          case h_2 v hv =>
            rw [candidateValue_eq_ok] at hv
            simp only [hv, Option.some.injEq, exists_eq_left', exists_eq_left]
            constructor
            case mp => exact congrArg Prod.snd
            case mpr => exact congrArg (Prod.mk _)

theorem resolve_eq_error {e} (h : r.resolve c x scope u = (.error e, r')) : r' = r := by
  unfold resolve at h
  split at h
  case isTrue => exact (congrArg Prod.snd h).symm
  cases hc : r.candidates c.field <;> simp only [hc] at h
  case error => exact (congrArg Prod.snd h).symm
  case ok cs =>
    split at h
    case isTrue => exact (congrArg Prod.snd h).symm
    split at h
    case isTrue => simp at h
    split at h
    case h_1 => exact (congrArg Prod.snd h).symm
    case h_2 => simp at h

theorem resolve_refused (h : r.candidates c.field ≠ .ok c.candidates ∨ x ∉ c.candidates) :
    ∃ e, r.resolve c x scope u = (.error e, r) := by
  cases hr : r.resolve c x scope u
  case mk res r' =>
    cases res
    case ok =>
      have ⟨_, hc, hx, _⟩ := resolve_eq_ok.mp hr
      rcases h with h | h <;> contradiction
    case error e => exact ⟨e, by rw [resolve_eq_error hr]⟩

end Resolve

-- Writing a value that is held already changes nothing but one register.
section Reads

variable {r : SyncReplica} (hr : r.Digested)
  (hv : r.Reads d v)
include hr hv

theorem Reads.referent : Write.referent ⟨f, v⟩ = d := by
  cases hv
  case tombstone => rfl
  case value hv => exact hr d _ hv

theorem values_perform (u : Uuid) : (r.perform ⟨f, v⟩ u).values = r.values := by
  apply ExtTreeMap.ext_getElem?
  intro id
  rw [getElem?_perform]
  cases hv
  case tombstone => rfl
  case value w _ hw =>
    simp only
    split
    case isTrue hd => rw [← hd, hr d w hw, hw]
    case isFalse => rfl

theorem candidates_perform_ne (u : Uuid) (hg : g ≠ f) :
    (r.perform ⟨f, v⟩ u).candidates g = r.candidates g := by
  have hk : g.key ≠ f.key := fun hk => hg (SyncFieldId.key_injective hk)
  refine candidates_congr ?_ fun d _ => ?_
  · rw [perform_document, Document.getAll_put_ne hk]
  · simp [Resolves, skips, values_perform hr hv]

theorem only_perform (u : Uuid) : (r.perform ⟨f, v⟩ u).Only f d := by
  have hl : lastOn [⟨f, v⟩] f = some ⟨f, v⟩ := by simp [lastOn]
  exact hv.referent hr (f := f) ▸ only_performAll r (fun _ => u) hl

theorem candidates_perform_self (u : Uuid) (hs : r.Resolves f d) :
    ∃ op, (r.perform ⟨f, v⟩ u).candidates f = .ok [⟨op, d⟩] := by
  have ⟨i, hg⟩ := Document.getAll_put_self r.document r.actor f.key
    (reference (Write.referent ⟨f, v⟩) u)
  have hc : (r.perform ⟨f, v⟩ u).candidate f (reference (Write.referent ⟨f, v⟩) u, i) =
      .ok ⟨operationText i, d⟩ := by
    refine candidate_eq_ok.mpr ⟨?_, rfl, ?_⟩
    · rw [referent_reference (isReferent_write _), hv.referent hr]
    · simpa [Resolves, skips, values_perform hr hv] using hs
  refine ⟨operationText i, candidates_eq_ok.mpr ⟨[⟨operationText i, d⟩], ?_, rfl⟩⟩
  rw [perform_document, hg]
  simp [hc, bind, Except.bind, pure, Except.pure]

end Reads

theorem Digested.collisionless {r : SyncReplica} (h : r.Digested) :
    Collisionless {v | ∃ id : String, r.values[id]? = some v} := by
  rintro v ⟨i, hv⟩ w ⟨j, hw⟩ hd
  rw [← h i v hv, hd, h j w hw, hw] at hv
  exact (Option.some.inj hv).symm

theorem Valid.resolve {r : SyncReplica} {c x scope u} (hr : r.Valid)
    (h : r.resolve c x scope u = (.ok (), r')) : r'.Valid := by
  obtain ⟨ha, hc, hx, v, hv, rfl⟩ := resolve_eq_ok.mp h
  have hh : r.Holds c.field x.value := (holds_iff hc).mpr ⟨x, hx, rfl⟩
  have hs : ¬r.skips (.presence c.field.resource) := fun hs => ha.seen (skips_of_skips_presence hs)
  have hl {f w} (hw : lastOn [⟨c.field, v⟩] f = some w) : w = ⟨c.field, v⟩ ∧ c.field = f := by
    have ⟨hm, hf⟩ := lastOn_mem hw
    cases List.mem_singleton.mp hm
    exact ⟨rfl, hf⟩
  show (r.performAll (fun _ => u) [⟨c.field, v⟩]).Valid
  refine hr.performAll hr.digests.collisionless (fun id v hv => ⟨id, hv⟩) ?_ ⟨?_, ?_, ?_⟩
  · intro w hw v' hv'
    cases List.mem_singleton.mp hw
    obtain rfl : v = some v' := hv'
    exact ⟨_, hv.held⟩
  · intro w hw
    cases List.mem_singleton.mp hw
    exact hr.readable.valid hh.written
  · intro ρ w hw
    obtain ⟨rfl, hf⟩ := hl hw
    have hf : c.field = .presence c.field.resource := by rw [hf]; rfl
    have ⟨b, hb⟩ := (hr.presences _ hh.written hs).booleans x.value (hf ▸ hh)
    exact ⟨b, hv.unique (hr.digests.reads hb)⟩
  · intro w hw _
    cases List.mem_singleton.mp hw
    exact .inr (hr.presences _ hh.written hs).written

theorem merge_document_of_le {r : SyncReplica}
    (h : ∀ q, load s .nil = .ok q → q.document ≤ r.document) :
    (r.merge s).2.document = r.document := by
  rcases merge_cases r s with ⟨e, he⟩ | ⟨q, ha, hl, _, he⟩
  · rw [he]
  · rw [he]
    exact Document.join_eq_left (h := ha) (h q hl)

theorem redelivered_document {r : SyncReplica} {ss : List ReplicaSnapshot}
    (h : ∀ s ∈ ss, ∀ q, load s .nil = .ok q → q.document ≤ r.document) :
    (ss.foldl (fun r s => (r.merge s).2) r).document = r.document := by
  induction ss generalizing r
  case nil => rfl
  case cons s ss hi =>
    have hs := merge_document_of_le (h s (by simp))
    rw [List.foldl_cons, hi, hs]
    intro s' hs' q hq
    rw [hs]
    exact h s' (by simp [hs']) q hq

-- Resolving the conflicts that a replica reports, one after the other.
inductive Resolutions (scope : SyncScope) : SyncReplica → Nat → SyncReplica → Prop
  | refl {r} : Resolutions scope r 0 r
  | step {r r₁ r₂ : SyncReplica} {n cs c x u} (hc : r.conflicts = .ok cs) (hm : c ∈ cs)
    (h : r.resolve c x scope u = (.ok (), r₁)) (hs : Resolutions scope r₁ n r₂) :
    Resolutions scope r (n + 1) r₂

namespace Resolutions

section

variable (h : Resolutions scope r n r')
include h

theorem valid (hr : r.Valid) : r'.Valid := by
  induction h
  case refl => exact hr
  case step h _ hi => exact hi (hr.resolve h)

theorem length_le (hr : r.Digested) {fs : List SyncFieldId}
    (hf : ∀ f, r.Disputed f → f ∈ fs) : n ≤ fs.length := by
  induction h generalizing fs
  case refl => exact Nat.zero_le _
  case step r r₁ r₂ n cs c x u hc hm h _ hi =>
    obtain ⟨_, _, _, v, hv, rfl⟩ := resolve_eq_ok.mp h
    have hd : c.field ∈ fs := hf _ ((mem_conflicts hc).mp hm).disputed
    have hr₁ : (r.perform ⟨c.field, v⟩ u).Digested := by
      intro id w hw
      exact hr id w (values_perform hr hv u ▸ hw)
    have hf₁ (f) (hd' : (r.perform ⟨c.field, v⟩ u).Disputed f) : f ∈ fs.erase c.field := by
      have hne : f ≠ c.field := by
        rintro rfl
        exact (only_perform hr hv u).not_disputed hd'
      have hg : (r.perform ⟨c.field, v⟩ u).document.getAll f.key = r.document.getAll f.key := by
        rw [perform_document, Document.getAll_put_ne fun hk => hne (SyncFieldId.key_injective hk)]
      refine (List.mem_erase_of_ne hne).mpr (hf f ?_)
      simpa only [Disputed, holds_congr hg] using hd'
    have hn := hi hr₁ hf₁
    have hl := List.length_erase_of_mem hd
    have := List.length_pos_of_mem hd
    omega

theorem excluded {f : SyncFieldId}
    (hf : ¬scope.includes f.resource.kind) :
    r'.document.getAll f.key = r.document.getAll f.key ∧ r'.fixed = r.fixed := by
  induction h
  case refl => exact ⟨rfl, rfl⟩
  case step c _ _ _ _ h _ hi =>
    obtain ⟨ha, _, _, v, _, rfl⟩ := resolve_eq_ok.mp h
    have hne : f.key ≠ c.field.key := by
      intro hk
      exact hf (SyncFieldId.key_injective hk ▸ ha.included)
    rw [hi.1, hi.2, perform_document, Document.getAll_put_ne hne]
    exact ⟨rfl, perform_fixed ..⟩

end

end Resolutions

theorem exists_resolve {r : SyncReplica} {c} (hc : r.Reported c) (scope : SyncScope)
    (hi : scope.includes c.field.resource.kind)
    (hs : supportsField c.field.resource.kind c.field.field) {x} (hx : x ∈ c.candidates) (u) :
    ∃ r', r.resolve c x scope u = (.ok (), r') := by
  have ⟨v, hv⟩ := exists_reads (candidates_resolve hc.candidates hx) hc.seen
  exact ⟨_, resolve_eq_ok.mpr ⟨⟨hi, hc.seen, hs⟩, hc.candidates, hx, v, hv, rfl⟩⟩

open Classical in
omit [Platform] in
theorem exists_disputed_fields {r : SyncReplica} (hr : r.Readable) :
    ∃ fs : List SyncFieldId, fs.Nodup ∧ ∀ f, f ∈ fs ↔ r.Disputed f := by
  have ⟨fs, hf⟩ := exists_fields.mpr hr.keys
  refine ⟨(fs.filter (r.Disputed ·)).dedup, List.nodup_dedup _, fun f => ?_⟩
  simp only [List.mem_dedup, List.mem_filter, mem_fields hf, decide_eq_true_eq,
    and_iff_right_iff_imp]
  exact fun hd => ⟨hr.valid hd.written, hd.written⟩

-- A resolution is final for what it saw.
theorem resolve_final (r : SyncReplica) (scope : SyncScope) (hr : r.Digested) :
    (∀ cs c x u r', r.conflicts = .ok cs → c ∈ cs → r.resolve c x scope u = (.ok (), r') →
      (∃ op, r'.candidates c.field = .ok [⟨op, x.value⟩]) ∧
      (∀ f, f ≠ c.field → r'.candidates f = r.candidates f) ∧
      ∀ ss : List ReplicaSnapshot,
        (∀ s ∈ ss, ∀ q, load s .nil = .ok q → q.document ≤ r.document) →
        let r'' := ss.foldl (fun r s => (r.merge s).2) r'
        r''.Only c.field x.value ∧ ∀ ds, r''.conflicts = .ok ds → ∀ d ∈ ds, d.field ≠ c.field) ∧
    (r.validate = .ok () → ∃ fs : List SyncFieldId, fs.Nodup ∧ (∀ f, f ∈ fs ↔ r.Disputed f) ∧
      ∀ n r', Resolutions scope r n r' → n ≤ fs.length ∧
        ∃ cs, r'.conflicts = .ok cs ∧ ∀ c ∈ cs, scope.includes c.field.resource.kind →
          supportsField c.field.resource.kind c.field.field →
          ∀ x ∈ c.candidates, ∀ u, ∃ r'', r'.resolve c x scope u = (.ok (), r'')) ∧
    ∀ c x u, r.candidates c.field ≠ .ok c.candidates ∨ x ∉ c.candidates →
      ∃ e, r.resolve c x scope u = (.error e, r) := by
  refine ⟨fun cs c x u r' _ _ h => ?_, fun hv => ?_, fun c x u h => resolve_refused h⟩
  · obtain ⟨_, hc, hx, v, hv, rfl⟩ := resolve_eq_ok.mp h
    have hs := candidates_resolve hc hx
    refine ⟨candidates_perform_self hr hv u hs, fun f hf => candidates_perform_ne hr hv u hf, ?_⟩
    intro ss hss r''
    have hd : r''.document = (r.perform ⟨c.field, v⟩ u).document := by
      refine redelivered_document fun s hm q hq => Document.le_trans (hss s hm q hq) ?_
      rw [perform_document]
      exact Document.le_put _ _ _ _
    have hh {d} : r''.Holds c.field d ↔ (r.perform ⟨c.field, v⟩ u).Holds c.field d :=
      holds_congr (by rw [hd])
    have ho := only_perform hr hv u (f := c.field)
    have ho : r''.Only c.field x.value := ⟨hh.mpr ho.holds, fun e he => ho.unique e (hh.mp he)⟩
    refine ⟨ho, fun ds hds d hm hf => ho.not_disputed ?_⟩
    exact hf ▸ ((mem_conflicts hds).mp hm).disputed
  · have hv := validate_eq_ok.mp hv
    have ⟨fs, hn, hf⟩ := exists_disputed_fields hv.readable
    refine ⟨fs, hn, hf, fun n r' h => ⟨h.length_le hr fun f => (hf f).mpr, ?_⟩⟩
    have ⟨cs, hc⟩ := exists_conflicts.mpr (h.valid hv).consistent
    exact ⟨cs, hc, fun c hm hi hs x hx u => exists_resolve ((mem_conflicts hc).mp hm) scope hi hs hx u⟩

theorem exists_contested (scope : SyncScope) (identities) (hv : (SyncFieldId.presence ρ).Valid)
    (hi : scope.includes ρ.kind) :
    ∃ baseline current current' r,
      ((new 1).capture baseline current scope identities).2.merge
        ((new 2).capture ∅ current' scope identities).2.snapshot = (.ok (), r) ∧
      r.Valid ∧ r.fixed = false ∧ r.Disputed (.presence ρ) := by
  let present : SyncValues := (∅ : SyncValues).insert (SyncFieldId.presence ρ).key (.bool true)
  have hp (k v) : present[k]? = some v ↔ k = (SyncFieldId.presence ρ).key ∧ v = .bool true := by
    grind
  have hb (k : String) : k ∈ present ↔ k = (SyncFieldId.presence ρ).key := by
    simp [mem_iff_getElem?_eq_some, hp]
  let kinds : BTreeSet String := (∅ : BTreeSet String).insert ρ.kind
  have hk : ρ.kind ∈ kinds := by simp [kinds]
  have hp' (k v) : (⟨present, ∅, ∅⟩ : SyncProjection).values[k]? = some v ↔ _ := hp k v
  have ⟨h₁, hs₁, hg⟩ := capture_new_gone 1 scope identities hv hi hb hk
  have ⟨h₂, hs₂, ho⟩ := capture_new_present 2 scope identities hv hi hp'
  have hn (i p q) (hp : ((new 1).capture present ⟨∅, kinds, ∅⟩ scope identities).2.document.op? i = some p)
      (hq : ((new 2).capture ∅ ⟨present, ∅, ∅⟩ scope identities).2.document.op? i = some q) :
      False := by
    have ha := op?_capture_new 1 scope identities hp
    rw [op?_capture_new 2 scope identities hq] at ha
    exact absurd ha (by decide)
  have hm := merge_snapshot h₁ h₂
    (compatible_of_stores collisionless_booleans hs₁ hs₂ h₁.digests h₂.digests)
    fun i p q hp hq => (hn i p q hp hq).elim
  have ⟨_, _, _, _, _, hr⟩ := merge_eq_ok hm
  refine ⟨_, _, _, _, hm, hr, by simp [join, new], ?_⟩
  refine ⟨_, _, (hg.only h₁.digests).holds.join_left hn, ho.holds.join_right hn, fun he => ?_⟩
  exact absurd (digest_bool he) (by decide)

omit [Platform] in
-- A connection that two devices dispute can be settled.
theorem resolve_final_contested : ∃ (_ : Platform) (r r' : SyncReplica) (cs : List SyncConflict)
    (c : SyncConflict) (x : SyncCandidate), r.Digested ∧ r.conflicts = .ok cs ∧ c ∈ cs ∧
      r.resolve c x {} 0 = (.ok (), r') ∧ ∃ op, r'.candidates c.field = .ok [⟨op, x.value⟩] := by
  generalize Platform.sample = platform
  have hv : (SyncFieldId.presence ⟨"connection", "c1"⟩).Valid := by decide
  obtain ⟨_, _, _, r, _, hr, hf, hd⟩ := exists_contested {} (fun _ => 0) hv (by decide)
  obtain ⟨c, hc, hcf⟩ := exists_reported_presence hr.readable (by simp [skips, hf]) hd
  obtain ⟨cs, hcs⟩ := exists_conflicts.mpr hr.consistent
  have hm := (mem_conflicts hcs).mpr hc
  obtain ⟨_, _, hh, _⟩ := hc.disputed
  obtain ⟨x, hx, _⟩ := (holds_iff hc.candidates).mp hh
  obtain ⟨r', h⟩ := exists_resolve hc {} (by rw [hcf]; decide) (by rw [hcf]; decide) hx 0
  refine ⟨platform, r, r', cs, c, x, hr.digests, hcs, hm, h, ?_⟩
  exact ((resolve_final r {} hr.digests).1 cs c x 0 r' hcs hm h).1

omit [Platform] in
-- A preference that two devices dispute stays a conflict for a device that does not synchronize
-- preferences, whatever it resolves.
theorem resolve_excluded_remains : ∃ (_ : Platform) (r : SyncReplica) (scope : SyncScope),
    r.validate = .ok () ∧ ∀ n r', Resolutions scope r n r' →
      ∃ c cs, r'.conflicts = .ok cs ∧ c ∈ cs ∧
        ∀ x u, r'.resolve c x scope u = (.error .excluded, r') := by
  generalize Platform.sample = platform
  have hv : (SyncFieldId.presence ⟨"preference", "p1"⟩).Valid := by decide
  obtain ⟨_, _, _, r, _, hr, hf, hd⟩ :=
    exists_contested { preferences := true } (fun _ => 0) hv (by decide)
  refine ⟨platform, r, {}, validate_eq_ok.mpr hr, fun n r' h => ?_⟩
  have hn : ¬SyncScope.includes {} (SyncFieldId.presence ⟨"preference", "p1"⟩).resource.kind := by
    decide
  obtain ⟨hg, hf'⟩ := h.excluded hn
  have hr' := h.valid hr
  have hd' : r'.Disputed (.presence ⟨"preference", "p1"⟩) := by
    simpa only [Disputed, holds_congr hg] using hd
  obtain ⟨c, hc, hcf⟩ := exists_reported_presence hr'.readable (by simp [skips, hf, hf']) hd'
  obtain ⟨cs, hcs⟩ := exists_conflicts.mpr hr'.consistent
  refine ⟨c, cs, hcs, (mem_conflicts hcs).mpr hc, fun x u => ?_⟩
  rw [resolve, if_pos (not_admits_iff.mpr fun ha => hn (hcf ▸ ha.included))]

end NyaTerm.SyncReplica

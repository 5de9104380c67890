import NyaTerm.Cloud.Theorems.Operations

open Program

namespace NyaTerm.CloudSync

variable [SnapshotFormat]
  {request : CloudResolutionRequest}

section Guard

attribute [local simp] CloudRequest.isPassive.eq_6 ask

theorem passive_failChanged : (failChanged : CloudSync α).Only (·.isPassive) := by
  simp [failChanged, changedPreview]
  rintro _ (_ | _) _ <;> simp

theorem passive_requireObserved (request : CloudResolutionRequest) :
    (requireObserved request).Only (·.isPassive) := by
  simp [requireObserved]
  intros
  split <;> simp [passive_failChanged]

theorem passive_guardHead (request : CloudResolutionRequest) :
    (guardHead request).Only (·.isPassive) := by
  simp [guardHead, passive_requireObserved, passive_failChanged]
  intros
  split
  · simp
  split
  · exact passive_failChanged
  simp
  rintro _ (_ | _) _ <;> simp [passive_failChanged]

theorem passive_requireOverwritable (pointers : List RemoteSyncPointer) :
    (requireOverwritable pointers).Only (·.isPassive) := by
  induction pointers
  case nil => simp [requireOverwritable]
  case cons hi =>
    simp [requireOverwritable]
    rintro _ (_ | _) _ <;> simp [hi, passive_failChanged]

theorem not_runs_failChanged {a : α} : ¬ Runs (failChanged : CloudSync α) t (.ok a) := by
  intro h
  have ⟨_, _, _, _, _, h₁⟩ := runs_bind_ok.mp h
  simp [runs_fail] at h₁

theorem runs_requireObserved
    (h : Runs (requireObserved request) t (.ok heads)) : Runs readHeads t (.ok heads) ∧
      heads.observedRevisions = request.observedRevisions := by
  obtain ⟨read, t₁, t₂, rfl, h₁, h₂⟩ := runs_bind_ok.mp h
  split at h₂
  case isTrue =>
    split at h₂
    · simp [runs_fail] at h₂
    · exact absurd h₂ not_runs_failChanged
  case isFalse ho =>
    obtain ⟨rfl, hr⟩ := runs_pure.mp h₂
    obtain rfl := Except.ok.inj hr
    exact ⟨by simpa using h₁, by simpa using ho⟩

-- What the guard has found right now is what the user was shown.
structure Guards (t : CloudTrace) (request : CloudResolutionRequest) : Prop where
  shown : ∃ u heads, u <:+: t ∧ Runs readHeads u (.ok heads) ∧
    heads.observedRevisions = request.observedRevisions
  unchanged : ∃ built, Got t .buildSnapshot built ∧
    built.syncContentHash = .ok request.localContentHash

theorem runs_guardHead (h : Runs (guardHead request) t (.ok ())) : Guards t request := by
  obtain ⟨heads, t₁, t₂, rfl, h₁, h₂⟩ := runs_bind_ok.mp h
  obtain ⟨built, t₃, rfl, h₃⟩ := runs_perform_bind_ok.mp h₂
  have ⟨content, hc, h₅⟩ := runs_portable_bind_ok.mp h₃
  split at h₅
  case isTrue => exact absurd h₅ not_runs_failChanged
  case isFalse hn =>
    obtain rfl := not_ne_iff.mp hn
    have ⟨hr, ho⟩ := runs_requireObserved h₁
    exact ⟨⟨t₁, heads, (List.prefix_append ..).isInfix, hr, ho⟩, built, by simp [Got], hc⟩

end Guard

section Guarded

theorem guardedRemote_eq_ask (h : ∀ bytes, c ≠ .write (.head options.deviceId) bytes) :
    guardedRemote options request c = ask c := by
  cases c
  case write path bytes =>
    have hp : path ≠ .head options.deviceId := by
      rintro rfl
      exact h bytes rfl
    simp only [guardedRemote, hp, decide_false]
    rfl
  all_goals rfl

theorem guardedRemote_head (bytes : Bytes) :
    guardedRemote options request (.write (.head options.deviceId) bytes) =
      (guardHead request >>= fun _ => ask (.write (.head options.deviceId) bytes)) := by
  simp only [guardedRemote, decide_true]
  rfl

theorem runs_guardedRemote (h : Runs (guardedRemote options request c) t (.ok x)) : Got t c x := by
  by_cases hc : ∃ bytes, c = .write (.head options.deviceId) bytes
  · obtain ⟨bytes, rfl⟩ := hc
    obtain ⟨_, t₁, t₂, rfl, _, h₂⟩ := runs_bind_ok.mp h
    obtain rfl := runs_perform.mp h₂
    exact .right (.head _)
  · rw [guardedRemote_eq_ask (not_exists.mp hc)] at h
    obtain rfl := runs_perform.mp h
    exact .head _

theorem translates_eq_of_unwritten (h : Translates (guardedRemote options request) t u)
    (ht : Unwritten t) : u = t := by
  induction h
  case nil => rfl
  case cons c x u t v hx _ hi =>
    have ⟨hc, ht⟩ := List.forall_mem_cons.mp ht
    have hn : ∀ bytes, c ≠ .write (.head options.deviceId) bytes := by
      rintro bytes rfl
      cases hc
    rw [guardedRemote_eq_ask hn] at hx
    obtain rfl := runs_perform.mp hx
    rw [hi ht]
    rfl

-- The head of the device is written right after the guard has agreed.
def Guarded (options : LocalCloudSyncOptions) (request : CloudResolutionRequest) (t : CloudTrace)
    (c : CloudRequest) : Prop :=
  ∀ bytes, c = .write (.head options.deviceId) bytes →
    ∃ t₁ t₂, t = t₁ ++ t₂ ∧ Runs (guardHead request) t₂ (.ok ())

variable {p : CloudSync α}

theorem guarded_of_passive (h : c.isPassive) : Guarded options request t c := by
  rintro bytes rfl
  cases h

theorem permits_of_passive (h : c.isPassive) : Permits terms t c :=
  .staging (CloudRequest.isStaging_of_isPassive h)

theorem obeys_guarded (h : p.Obeys (Permits terms) t) :
    (p.translate (guardedRemote options request)).Obeys
      (fun t c => Permits terms t c ∧ Guarded options request t c) t := by
  intro u c hc
  obtain ⟨s, d, v, w, rfl, hs, hv, hw⟩ := asks_translate hc
  have hp := h s d hs
  have he : Embeds (t ++ s) (t ++ v) := fun c x hg =>
    got_append.mpr ((got_append.mp hg).imp_right (hv.got runs_guardedRemote))
  rw [← List.append_assoc]
  by_cases hd : ∃ bytes, d = .write (.head options.deviceId) bytes
  · obtain ⟨bytes, rfl⟩ := hd
    rw [guardedRemote_head] at hw
    rcases asks_bind.mp hw with hw | ⟨_, w₁, w₂, rfl, h₁, h₂⟩
    · have hk := (passive_guardHead request).asks hw
      exact ⟨permits_of_passive hk, guarded_of_passive hk⟩
    · obtain ⟨rfl, rfl⟩ := asks_perform.mp h₂
      rw [List.append_nil]
      refine ⟨?_, fun _ _ => ⟨_, w₁, rfl, h₁⟩⟩
      have hu := unwritten_of_passive (passive_guardHead request) h₁
      generalize hd : CloudRequest.write (.head options.deviceId) bytes = d at hp
      cases hp
      case head hb hp =>
        have ht := List.forall_mem_append.mp hp.first
        rw [translates_eq_of_unwritten hv ht.2]
        exact .head hb.left (hp.append hu)
      case staging h =>
        rw [← hd] at h
        cases h
      all_goals cases hd
  · rw [guardedRemote_eq_ask (not_exists.mp hd)] at hw
    obtain ⟨rfl, rfl⟩ := asks_perform.mp hw
    rw [List.append_nil]
    refine ⟨?_, fun bytes hb => absurd ⟨bytes, hb⟩ hd⟩
    by_cases hh : c.isHeadless
    · exact hp.lift hh he
    · cases hp
      case head hb hp =>
        have ht := List.forall_mem_append.mp hp.first
        rw [translates_eq_of_unwritten hv ht.2]
        exact .head hb hp
      case staging h => exact absurd (CloudRequest.isHeadless_of_isStaging h) hh
      all_goals exact absurd rfl hh

end Guarded

-- The terms of a resolution: no branch has to be spared, but the heads are those that were shown.
abbrev resolutionTerms (options : LocalCloudSyncOptions) (state : CloudSyncState)
    (request : CloudResolutionRequest) : Terms :=
  ⟨options.deviceId, state, False, fun r => r.observedRevisions = request.observedRevisions⟩

theorem prepares_observed {built : RawPortableSnapshot}
    {selected : Option RemoteSyncPointer} {remote : Option RawPortableSnapshot} (hi : u <:+: t)
    (hr : Runs readHeads u (.ok heads)) (ho : heads.observedRevisions = request.observedRevisions)
    (hb : Got t .buildSnapshot built) (hs : ∀ head ∈ selected, head ∈ heads.heads)
    (hf : ∀ snapshot ∈ remote, ∃ head ∈ selected, Fetched t head snapshot) :
    Prepares t (true = false) (fun r => r.observedRevisions = request.observedRevisions)
      ⟨built, { heads with selected := selected }, remote⟩ where
  built := ⟨built, hb, .inl rfl⟩
  heads := ⟨u, heads, hi, hr, rfl⟩
  accepted := ho
  asRead := nofun
  selected head hh := (readable_of_mem_heads hr (hs head hh)).mono hi.subset
  remote := hf

theorem obeys_resolveInner (hu : Unwritten t) : (resolveInner options state request).Obeys
    (fun t c => Permits (resolutionTerms options state request) t c ∧ Guarded options request t c)
    t := by
  have hp {α : Type} {p : CloudSync α} {t : CloudTrace} (h : p.Only (·.isPassive)) : p.Obeys
      (fun t c => Permits (resolutionTerms options state request) t c ∧
        Guarded options request t c) t :=
    h.obeys fun _ _ hc => ⟨permits_of_passive hc, guarded_of_passive hc⟩
  refine obeys_perform_bind ⟨permits_of_passive rfl, guarded_of_passive rfl⟩ fun c => ?_
  refine obeys_bind (hp (passive_requireObserved request)) fun t₁ heads h₁ => ?_
  refine obeys_perform_bind ⟨permits_of_passive rfl, guarded_of_passive rfl⟩ fun built => ?_
  refine obeys_portable_bind fun content _ => ?_
  refine obeys_ite (fun _ => hp passive_failChanged) fun _ => ?_
  obtain ⟨hr, ho⟩ := runs_requireObserved h₁
  have hi (u : CloudTrace) : t₁ <:+: t ++ [⟨.checkpoint, .ok c⟩] ++ t₁ ++
      [⟨.buildSnapshot, .ok built⟩] ++ u := by
    rw [List.append_assoc _ _ u]
    exact List.infix_append ..
  have hg (u : CloudTrace) : Got (t ++ [⟨.checkpoint, .ok c⟩] ++ t₁ ++
      [⟨.buildSnapshot, .ok built⟩] ++ u) .buildSnapshot built := by
    simp [Got]
  have hw := ((hu.append (unwritten_singleton (c := .checkpoint) rfl (.ok c))).append
    (unwritten_of_passive (passive_requireObserved request) h₁)).append
      (unwritten_singleton (c := .buildSnapshot) rfl (.ok built))
  cases request.selectedRevision
  case none =>
    refine obeys_bind (hp (passive_requireOverwritable _)) fun t₃ _ h₃ => ?_
    refine obeys_guarded (obeys_weaken (obeys_pushPrepared ?_ (fun h => by cases h) ?_) False.elim)
    · rintro _ ⟨⟩
      refine prepares_observed (hi t₃) hr ho (hg t₃) (fun head hh => ?_)
        fun _ h => by cases h
      obtain ⟨paths, records, hrs⟩ := runs_readHeads hr
      exact mem_heads_of_mem_maximal (hrs.collects.selected head hh)
    · exact hw.append (unwritten_of_passive (passive_requireOverwritable _) h₃)
  case some revision =>
    dsimp only
    cases hf : heads.maximal.find? (·.revisionId = revision)
    case none => exact obeys_fail
    case some pointer =>
      refine obeys_bind (hp (passive_readSnapshotForPointer pointer)) fun t₃ snapshot h₃ => ?_
      refine obeys_guarded (obeys_weaken (obeys_pullPrepared ?_ (fun h => by cases h) ?_) False.elim)
      · rintro _ ⟨⟩
        refine prepares_observed (hi t₃) hr ho (hg t₃) ?_ ?_
        · rintro _ ⟨⟩
          exact mem_heads_of_mem_maximal (List.mem_of_find?_eq_some hf)
        · rintro _ ⟨⟩
          have hv := (runs_readSnapshotForPointer h₃).fetched
          exact ⟨pointer, rfl, hv.mono (List.subset_append_right ..)⟩
      · exact hw.append (unwritten_of_passive (passive_readSnapshotForPointer pointer) h₃)

-- A resolution builds upon the heads that were shown, and the guard agrees before it publishes.
theorem obeys_resolve : (resolve options state request).Obeys
    (fun t c => Permits (resolutionTerms options state request) t c ∧ Guarded options request t c)
    [] := by
  refine obeys_perform_bind ⟨permits_of_passive rfl, guarded_of_passive rfl⟩ fun c => ?_
  refine obeys_withDetails_of (fun _ _ hc => ⟨permits_of_passive hc, guarded_of_passive hc⟩) ?_
  refine obeys_bind (obeys_attempt (obeys_resolveInner (unwritten_singleton rfl _)))
    fun t₁ r _ => ?_
  cases r
  case ok => exact obeys_pure
  case error error =>
    refine obeys_ite (fun _ => ?_) fun _ => obeys_fail
    exact passive_failChanged.obeys fun _ _ hc => ⟨permits_of_passive hc, guarded_of_passive hc⟩

end NyaTerm.CloudSync

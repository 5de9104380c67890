import NyaTerm.Cloud.Theorems.Pull
import NyaTerm.Cloud.Theorems.Push

open Program

namespace NyaTerm.CloudSync

variable [SnapshotFormat]

section Check

variable {careful : Prop}

theorem runs_withDetails_ok (h : Runs (withDetails p) t (.ok a)) : Runs p t (.ok a) := by
  obtain ⟨r, t₁, t₂, rfl, h₁, h₂⟩ := runs_bind_ok.mp h
  have h₃ := runs_attempt_ok.mp h₁
  split at h₂
  case h_1 =>
    obtain ⟨rfl, rfl⟩ := runs_pure_ok.mp h₂
    rwa [List.append_nil]
  case h_2 =>
    have ⟨built, _, _, _, _, h₄⟩ := runs_bind_ok.mp h₂
    have ⟨heads, _, _, _, _, h₅⟩ := runs_bind_ok.mp h₄
    split at h₅
    · have ⟨_, _, _, _, _, h₆⟩ := runs_bind_ok.mp h₅
      simp [runs_fail] at h₆
    · simp [runs_fail] at h₅
  case h_3 => simp [runs_fail] at h₂

theorem obeys_withDetails_of (hp : ∀ t c, c.isPassive → P t c) (h : p.Obeys P t) :
    (withDetails p).Obeys P t := by
  refine obeys_bind (obeys_attempt h) fun u r _ => ?_
  split
  case h_1 => exact obeys_pure
  case h_3 => exact obeys_fail
  case h_2 =>
    refine Only.obeys (Q := (·.isPassive)) ?_ hp
    simp [ask, CloudRequest.isPassive.eq_6]
    intros
    split <;> simp

theorem obeys_withDetails (h : p.Obeys (Permits terms) t) :
    (withDetails p).Obeys (Permits terms) t :=
  obeys_withDetails_of (fun _ _ hc => .staging (CloudRequest.isStaging_of_isPassive hc)) h

theorem runs_checkRemoteSnapshot
    (h : Runs (checkRemoteSnapshot options pointer localHash) t (.ok (receipt, remote))) :
    (∃ snapshot, Fetched t pointer snapshot ∧
      snapshot.syncContentHash = .ok receipt.contentHash ∧ remote = some snapshot) ∨
    (Got t (.receipt pointer) (some receipt) ∧ remote = none) := by
  obtain ⟨found, t, rfl, h₁⟩ := runs_perform_bind_ok.mp h
  cases found
  case some found =>
    have ⟨rfl, ho⟩ := runs_pure.mp h₁
    obtain ⟨rfl, rfl⟩ := Prod.mk.inj (Except.ok.inj ho)
    exact .inr ⟨.head _, rfl⟩
  case none =>
    obtain ⟨r, t₁, t₂, rfl, h₂, h₃⟩ := runs_bind_ok.mp h₁
    have hr {s} (hs : r = .current s ∨ r = .legacyMigrated s) :
        Fetched (⟨.receipt pointer, .ok none⟩ :: (t₁ ++ t₂)) pointer s :=
      (runs_resolveRemoteSnapshot h₂ hs).mono fun e he => by simp [he]
    cases r
    case inconsistent => simp [runs_fail] at h₃
    all_goals
      have ⟨content, hc, h₅⟩ := runs_done_bind_ok.mp h₃
      obtain ⟨_, t₄, rfl, h₆⟩ := runs_perform_bind_ok.mp h₅
      obtain ⟨rfl, ho⟩ := runs_pure.mp h₆
      obtain ⟨rfl, rfl⟩ := Prod.mk.inj (Except.ok.inj ho)
      exact .inl ⟨_, hr (by simp), CloudSyncState.contentHash_eq_ok.mp hc, rfl⟩

theorem obeys_checkRemoteSnapshot (pointer : RemoteSyncPointer) (localHash : String) :
    (checkRemoteSnapshot options pointer localHash).Obeys
      (Permits ⟨options.deviceId, state, careful, shown⟩) t := by
  refine obeys_perform_bind (.staging rfl) fun found => ?_
  cases found
  case some => exact obeys_pure
  case none =>
    refine obeys_bind (obeys_of_staging (staging_resolveRemoteSnapshot options pointer))
      fun u r h₁ => ?_
    have hr {s} (hs : r = .current s ∨ r = .legacyMigrated s) :
        Fetched (t ++ [⟨.receipt pointer, .ok none⟩] ++ u) pointer s :=
      (runs_resolveRemoteSnapshot h₁ hs).mono fun e he => by simp [he]
    cases r
    case inconsistent => exact obeys_fail
    all_goals
      refine obeys_done_bind fun content hc => ?_
      have hk := CloudSyncState.contentHash_eq_ok.mp hc
      exact obeys_perform_bind (.receipt (hr (by simp)) hk) fun _ => obeys_pure

-- What is known of a check that went well: the baseline only changes if nothing is left to do.
structure Checks (t : CloudTrace) (state : CloudSyncState) (checked : CloudSyncCheck) : Prop where
  prepared : Prepares t True (fun _ => True) checked.prepared
  adopts : Adopts t state checked.state
  same : checked.decision ≠ .upToDate → checked.state = state

theorem runs_checkInner (h : Runs (checkInner options state allowAutoPull) t (.ok checked)) :
    Checks t state checked := by
  obtain ⟨_, t₁, t, rfl, _, h₁⟩ := runs_bind_ok.mp h
  obtain ⟨built, t, rfl, h₂⟩ := runs_perform_bind_ok.mp h₁
  obtain ⟨localSnapshot, hl, h₄⟩ := runs_portable_bind_ok.mp h₂
  obtain ⟨heads, t₂, t, rfl, h₅, h₆⟩ := runs_bind_ok.mp h₄
  obtain ⟨_, _, h₈⟩ := runs_done_bind_ok.mp h₆
  have hi (t) : t₂ <:+: t₁ ++ ⟨.buildSnapshot, .ok built⟩ :: (t₂ ++ t) := by
    rw [List.append_cons, ← List.append_assoc]
    exact List.infix_append ..
  have hp (t) : Prepares (t₁ ++ ⟨.buildSnapshot, .ok built⟩ :: (t₂ ++ t)) True
      (fun _ => True) ⟨localSnapshot, heads, none⟩ := {
    built := ⟨built, by simp [Got], .inr hl⟩
    heads := ⟨t₂, heads, hi t, h₅, rfl⟩
    accepted := trivial
    asRead := fun _ => ⟨t₂, hi t, h₅⟩
    selected := fun head hh => (readable_of_selected h₅ head hh).mono (hi t).subset
    remote := nofun
  }
  cases hs : heads.selected
  case none =>
    simp only [hs] at h₈
    obtain ⟨rfl, rfl⟩ := runs_pure_ok.mp h₈
    exact ⟨by simpa using hp [], .same rfl rfl, fun _ => rfl⟩
  case some pointer =>
    simp only [hs] at h₈
    obtain ⟨_, _, h₁₀⟩ := runs_done_bind_ok.mp h₈
    obtain ⟨⟨receipt, remote⟩, t₃, t, rfl, h₁₁, h₁₂⟩ := runs_bind_ok.mp h₁₀
    obtain ⟨content, hc, h₁₄⟩ := runs_portable_bind_ok.mp h₁₂
    split at h₁₄
    case isTrue => simp [runs_fail] at h₁₄
    obtain ⟨rfl, rfl⟩ := runs_pure_ok.mp h₁₄
    simp only [List.append_nil]
    have hf := runs_checkRemoteSnapshot h₁₁
    have ht : t₃ ⊆ t₁ ++ ⟨.buildSnapshot, .ok built⟩ :: (t₂ ++ t₃) := fun e he => by simp [he]
    refine ⟨{ hp t₃ with remote := ?_ }, ?_, ?_⟩
    · rintro snapshot ⟨⟩
      rcases hf with ⟨snapshot, hf, _, ⟨⟩⟩ | ⟨_, ⟨⟩⟩
      exact ⟨pointer, hs, hf.mono ht⟩
    · split
      case isFalse => exact .same rfl rfl
      case isTrue hu =>
        have hr := (hp t₃).selected pointer hs
        rcases CloudSyncState.decideCheck_eq_upToDate hu with hk | hk
        · have hsh : built.Shows content :=
            .inl (RawPortableSnapshot.syncContentHash_recalculateHash hl ▸ hc)
          refine .head (.inr ⟨hr, built, content, by simp [Got], hsh, ?_⟩) rfl rfl
          rcases hf with ⟨snapshot, hf, hc, _⟩ | ⟨hf, _⟩
          · exact .inl ⟨snapshot, hf.mono ht, hk ▸ hc⟩
          · exact .inr ⟨receipt, hf.mono ht, hk.symm⟩
        · exact .renewed hr hk rfl rfl
    · intro hn
      exact if_neg hn

theorem obeys_checkInner (allowAutoPull : Bool) :
    (checkInner options state allowAutoPull).Obeys (Permits ⟨options.deviceId, state, careful, shown⟩) t := by
  refine obeys_bind (obeys_of_passive (passive_ensureEnabled options)) fun _ _ _ => ?_
  refine obeys_perform_bind (.staging rfl) fun built => ?_
  refine obeys_bind (obeys_of_passive (passive_portable _)) fun _ localSnapshot _ => ?_
  refine obeys_bind (obeys_of_passive passive_readHeads) fun _ heads _ => ?_
  refine obeys_bind obeys_done fun _ _ _ => ?_
  cases heads.selected
  case none => exact obeys_pure
  case some pointer =>
    refine obeys_bind obeys_done fun _ _ _ => ?_
    refine obeys_bind (obeys_checkRemoteSnapshot pointer _) fun _ found _ => ?_
    refine obeys_bind (obeys_of_passive (passive_portable _)) fun _ content _ => ?_
    exact obeys_ite (fun _ => obeys_fail) fun _ => obeys_pure

end Check

section Operations

variable {careful : Prop}

theorem Permits.weaken (h : Permits ⟨device, state, careful, shown⟩ t c) (hc : careful' → careful) :
    Permits ⟨device, state, careful', shown⟩ t c := by
  cases h
  case staging h => exact .staging h
  case head hb h => exact .head hb { h with single := fun h' => h.single (hc h') }
  case latest hk hh hb => exact .latest hk hh hb
  case current hk => exact .current hk
  case unstage => exact .unstage
  case persist h => exact .persist h
  case apply h =>
    exact .apply ⟨h.head, fun h' => h.continues (hc h'), fun h' => h.unchanged (hc h')⟩
  case receipt hs hk => exact .receipt hs hk

theorem obeys_weaken {p : CloudSync α} (h : p.Obeys (Permits ⟨device, state, careful, shown⟩) t)
    (hc : careful' → careful) : p.Obeys (Permits ⟨device, state, careful', shown⟩) t :=
  fun u c hu => (h u c hu).weaken hc

theorem obeys_push (force : Bool) :
    (push options state force).Obeys
      (Permits ⟨options.deviceId, state, force = false, fun _ => True⟩) [] := by
  refine obeys_withDetails (obeys_pushPrepared (fun _ h => ?_) (fun _ _ => trivial) unwritten_nil)
  cases h

theorem obeys_pull (force : Bool) :
    (pull options state force).Obeys
      (Permits ⟨options.deviceId, state, force = false, fun _ => True⟩) [] := by
  refine obeys_withDetails (obeys_pullPrepared (fun _ h => ?_) (fun _ _ => trivial) unwritten_nil)
  cases h

theorem obeys_check (allowAutoPull : Bool) :
    (check options state allowAutoPull).Obeys (Permits ⟨options.deviceId, state, careful, shown⟩) [] :=
  obeys_withDetails (obeys_checkInner allowAutoPull)

theorem headless_checkInner (allowAutoPull : Bool) :
    (checkInner options state allowAutoPull).Only (·.isHeadless) := by
  have hh {α : Type} {p : CloudSync α} (h : p.Only (·.isStaging options.deviceId)) :
      p.Only (·.isHeadless) := h.mono fun _ => CloudRequest.isHeadless_of_isStaging
  have hp {α : Type} {p : CloudSync α} (h : p.Only (·.isPassive)) : p.Only (·.isHeadless) :=
    hh (staging_of_passive h)
  simp [checkInner, ask, hp, CloudRequest.isHeadless.eq_2]
  intros
  split <;> simp [checkRemoteSnapshot, hp, ask, CloudRequest.isHeadless.eq_2]
  rintro _ _ _ _ (_ | _) _ <;> simp [hh]
  intros
  split <;> simp [CloudRequest.isHeadless.eq_2]

theorem obeys_autoSync (autoPush allowAutoPull : Bool) :
    (autoSync options state autoPush allowAutoPull).Obeys
      (Permits ⟨options.deviceId, state, careful, fun _ => True⟩) [] := by
  refine obeys_bind (obeys_check allowAutoPull) fun t checked h₁ => ?_
  have hc := runs_withDetails_ok h₁
  have hk := runs_checkInner hc
  have hp : ∀ prepared ∈ some checked.prepared, Prepares t (false = false) (fun _ => True) prepared := by
    rintro _ ⟨⟩
    exact hk.prepared.weaken fun _ => trivial
  have hu : Unwritten t := (headless_checkInner allowAutoPull).runs hc
  split
  case h_1 hd =>
    have hs : checked.state = state := hk.same (by simp [hd])
    have hb : (pushPrepared options checked.state false (some checked.prepared)).Obeys
        (Permits ⟨options.deviceId, state, false = false, fun _ => True⟩) t := by
      rw [hs]
      exact obeys_pushPrepared hp (fun _ _ => trivial) hu
    refine obeys_ite (fun _ => ?_) fun _ => obeys_perform (.persist hk.adopts)
    exact obeys_bind (obeys_weaken (obeys_withDetails hb) fun _ => rfl) fun _ _ _ => obeys_pure
  case h_2 hd =>
    have hs : checked.state = state := hk.same (by simp [hd])
    have hb : (pullPrepared options checked.state false (some checked.prepared)).Obeys
        (Permits ⟨options.deviceId, state, false = false, fun _ => True⟩) t := by
      rw [hs]
      exact obeys_pullPrepared hp (fun _ _ => trivial) hu
    exact obeys_bind (obeys_weaken (obeys_withDetails hb) fun _ => rfl) fun _ _ _ => obeys_pure
  case h_3 => exact obeys_perform (.persist hk.adopts)
  case h_4 => exact obeys_pure

theorem runs_recoverCurrentRemoteSnapshot
    (h : Runs (recoverCurrentRemoteSnapshot options) t (.ok snapshot)) :
    Publishes t (.ofSnapshot snapshot) := by
  obtain ⟨current, t₁, t, rfl, _, h₁⟩ := runs_bind_ok.mp h
  cases current
  case none => simp [runs_fail] at h₁
  case some current =>
    obtain ⟨_, _, t, rfl, _, h₂⟩ := runs_bind_ok.mp h₁
    obtain ⟨_, _, t, rfl, _, h₃⟩ := runs_bind_ok.mp h₂
    obtain ⟨_, t, rfl, h₄⟩ := runs_perform_bind_ok.mp h₃
    obtain ⟨_, t, rfl, h₅⟩ := runs_perform_bind_ok.mp h₄
    obtain ⟨_, _, t, rfl, _, h₆⟩ := runs_bind_ok.mp h₅
    obtain ⟨_, _, t, rfl, _, h₇⟩ := runs_bind_ok.mp h₆
    obtain ⟨_, _, t, rfl, _, h₈⟩ := runs_bind_ok.mp h₇
    obtain ⟨_, _, t, rfl, _, h₉⟩ := runs_bind_ok.mp h₈
    obtain ⟨_, h₁₀, rfl⟩ := runs_bind_pure_ok.mp h₉
    exact (runs_commitHead h₁₀).mono fun e he => by simp [he]

theorem obeys_recoverCurrentRemoteSnapshot (hu : Unwritten t) :
    (recoverCurrentRemoteSnapshot options).Obeys
      (Permits ⟨options.deviceId, state, False, fun _ => True⟩) t := by
  refine obeys_bind (obeys_of_passive passive_readCurrent) fun u₁ current h₁ => ?_
  cases current
  case none => exact obeys_fail
  case some current =>
    refine obeys_bind (obeys_of_passive passive_readHeads) fun u₂ heads h₂ => ?_
    refine obeys_portable_bind fun projected _ => ?_
    refine obeys_perform_bind (.staging rfl) fun revision => ?_
    refine obeys_perform_bind (.staging rfl) fun now => ?_
    refine obeys_done_bind fun clock hc => ?_
    refine obeys_portable_bind fun snapshot hs => ?_
    have ⟨hrev, hdev, hclk⟩ := RawPortableSnapshot.recalculateHash_meta hs
    refine obeys_bind (obeys_of_staging (staging_uploadSyncSnapshot options ..))
      fun u₃ bytes h₆ => ?_
    refine obeys_bind (obeys_of_passive (passive_ensureRemoteHeadUnchanged _)) fun u₄ _ h₇ => ?_
    refine obeys_bind (obeys_commitHead ?_ bytes) fun _ _ _ => obeys_pure
    refine .append (.append ?_ (unwritten_of_staging (staging_uploadSyncSnapshot options ..) h₆))
      (unwritten_of_passive (passive_ensureRemoteHeadUnchanged _) h₇)
    have hi : u₂ <:+: t ++ u₁ ++ u₂ ++ [⟨.newRevision, .ok revision⟩] ++ [⟨.currentTime, .ok now⟩] := by
      rw [List.append_assoc (t ++ u₁ ++ u₂)]
      exact List.infix_append ..
    refine .of_newRevision hdev ?_ ⟨u₂, heads, hi, h₂, rfl⟩ trivial (.inr rfl) hc hclk id ?_
    · simp [Got, RemoteSyncPointer.ofSnapshot, hrev]
    · have hr := (hu.append (unwritten_of_passive passive_readCurrent h₁)).append
        (unwritten_of_passive passive_readHeads h₂)
      exact (hr.append (unwritten_singleton rfl _)).append (unwritten_singleton rfl _)

theorem obeys_recover :
    (recover options).Obeys (Permits ⟨options.deviceId, state, False, fun _ => True⟩) [] := by
  refine obeys_perform_bind (.staging rfl) fun c => ?_
  refine obeys_bind (obeys_of_passive (passive_ensureEnabled options)) fun t₁ _ h₁ => ?_
  refine obeys_bind (obeys_of_passive passive_ensureRemoteLayout) fun t₂ _ h₂ => ?_
  refine obeys_perform_bind (.staging rfl) fun built => ?_
  refine obeys_bind (obeys_of_passive (passive_portable _)) fun t₃ content h₃ => ?_
  refine obeys_bind (obeys_recoverCurrentRemoteSnapshot ?_) fun t₄ snapshot h₄ => ?_
  · have hu := ((unwritten_singleton (c := .checkpoint) rfl (.ok c)).append
      (unwritten_of_passive (passive_ensureEnabled options) h₁)).append
      (unwritten_of_passive passive_ensureRemoteLayout h₂)
    exact (hu.append (unwritten_singleton rfl _)).append
      (unwritten_of_passive (passive_portable _) h₃)
  · refine obeys_perform_bind (.apply ?_) fun _ => obeys_pure
    have hp := runs_recoverCurrentRemoteSnapshot h₄
    exact ⟨⟨_, .inl ⟨hp.right, rfl⟩, rfl, rfl⟩, False.elim, False.elim⟩

theorem obeys_cleanupSyncSnapshots (latest : Option RemoteSyncPointer) :
    (cleanupSyncSnapshots latest).Obeys (Permits terms) [] :=
  obeys_of_staging (staging_cleanupSyncSnapshots latest)

end Operations

end NyaTerm.CloudSync

import NyaTerm.Cloud.Theorems.Decisions
import NyaTerm.Cloud.Theorems.Upload

open Program

namespace NyaTerm

variable [SnapshotFormat]

namespace CloudSync

variable {t u : CloudTrace}

-- The heads are what was read in one go, up to the one that is selected.
def ReadHeads (t : CloudTrace) (heads : RemoteHeads) : Prop :=
  ∃ u r, u <:+: t ∧ Runs readHeads u (.ok r) ∧ heads = { r with selected := heads.selected }

-- The head was written.
def Publishes (t : CloudTrace) (head : RemoteSyncPointer) : Prop :=
  Got t (.write (.head head.deviceId)
    (SnapshotFormat.encodeHead ⟨head.deviceId, some head, none⟩)) ()

-- What the device holds was found to be what the head stands for.
structure Matches (t : CloudTrace) (head : RemoteSyncPointer) : Prop where
  readable : Readable t head
  same : ∃ built hash, Got t .buildSnapshot built ∧ built.Shows hash ∧
    ((∃ snapshot, Fetched t head snapshot ∧ snapshot.syncContentHash = .ok hash) ∨
      ∃ receipt, Got t (.receipt head) (some receipt) ∧ receipt.contentHash = hash)

-- On which terms an operation runs: for which device and from which baseline, whether it has to
-- spare other branches, and what is required of the heads that it builds upon.
structure Terms where
  device : String
  state : CloudSyncState
  careful : Prop
  shown : RemoteHeads → Prop

-- The baseline stays as it was, or it becomes a head that the device has made, that it matches or
-- that it has applied already.
inductive Adopts (t : CloudTrace) (state next : CloudSyncState) : Prop
  | same (hc : next.lastSyncedClock = state.lastSyncedClock)
    (hr : next.lastAppliedRemoteRevision = state.lastAppliedRemoteRevision)
  | head {head} (hh : Publishes t head ∨ Matches t head)
    (hc : next.lastSyncedClock = head.syncClock)
    (hr : next.lastAppliedRemoteRevision = some head.revisionId)
  | renewed {head} (hh : Readable t head)
    (ha : state.lastAppliedRemoteRevision = some head.revisionId)
    (hc : next.lastSyncedClock = head.syncClock)
    (hr : next.lastAppliedRemoteRevision = some head.revisionId)

-- A snapshot is applied together with the baseline that belongs to it. Unless the user insists, it
-- continues the baseline of the device, and nothing has changed there or there is nothing to lose.
structure Applies (t : CloudTrace) (state : CloudSyncState) (careful : Prop)
    (snapshot : RawPortableSnapshot) (expected : String) (next : CloudSyncState) : Prop where
  head : ∃ head, (Publishes t head ∧ head = .ofSnapshot snapshot ∨
      Readable t head ∧ Fetched t head snapshot) ∧
    next.lastSyncedClock = head.syncClock ∧
    next.lastAppliedRemoteRevision = some snapshot.revisionId
  continues : careful → ∀ baseline ∈ state.lastSyncedClock, ∃ clock ∈ snapshot.syncClock,
    clock.strictlyDominates baseline
  unchanged : careful → ∃ built, Got t .buildSnapshot built ∧
    built.syncContentHash = .ok expected ∧
    (state.lastSyncedContentHash = some expected ∨ built.hasUserContent = false)

-- No head has been written so far.
def Unwritten (t : CloudTrace) : Prop :=
  ∀ e ∈ t, e.1.isHeadless

theorem unwritten_nil : Unwritten [] := by
  simp [Unwritten]

theorem Unwritten.append (h : Unwritten t) (hu : Unwritten u) : Unwritten (t ++ u) :=
  List.forall_mem_append.mpr ⟨h, hu⟩

theorem unwritten_singleton (h : c.isHeadless) (x : Except CloudSyncError (Answer c)) :
    Unwritten [⟨c, x⟩] := by
  simpa [Unwritten] using h

theorem unwritten_of_staging (hp : p.Only (·.isStaging device)) (h : Runs p t r) : Unwritten t :=
  fun e he => CloudRequest.isHeadless_of_isStaging (hp.runs h e he)

theorem unwritten_of_passive (hp : p.Only (·.isPassive)) (h : Runs p t r) : Unwritten t :=
  unwritten_of_staging (staging_of_passive (d := "") hp) h

-- A head is published with a clock above everything that was read. Unless the user insists, there
-- was only one branch, and the device knows it or it holds nothing of the user.
structure Commits (t : CloudTrace) (terms : Terms) (head : RemoteSyncPointer) : Prop where
  origin : (∃ built, Got t .buildSnapshot built ∧ head.deviceId = built.deviceId ∧
      head.revisionId = built.revisionId) ∨
    (head.deviceId = terms.device ∧ Got t .newRevision head.revisionId)
  ticks : ∃ r previous clock, ReadHeads t r ∧ terms.shown r ∧
    (previous = terms.state.lastSyncedClock ∨ previous = none) ∧
    r.nextClock previous terms.device = .ok clock ∧ head.syncClock = some clock
  single : terms.careful → ∃ u r, u <:+: t ∧ Runs readHeads u (.ok r) ∧ r.concurrent = false ∧
    (∃ clock, r.nextClock terms.state.lastSyncedClock terms.device = .ok clock ∧
      head.syncClock = some clock) ∧
    ∀ selected ∈ r.selected, terms.state.lastAppliedRemoteRevision = some selected.revisionId ∨
      ∃ snapshot, Fetched t selected snapshot ∧ snapshot.hasUserContent = false
  first : Unwritten t

-- What an operation may ask for next, after everything it was answered.
inductive Permits (terms : Terms) (t : CloudTrace) : CloudRequest → Prop
  | staging {c} (h : c.isStaging terms.device) : Permits terms t c
  | head {head} (hb : Got t .beginCommit ()) (h : Commits t terms head) :
    Permits terms t (.write (.head head.deviceId)
      (SnapshotFormat.encodeHead ⟨head.deviceId, some head, none⟩))
  | latest {head bytes} (hc : Got t .beginCommit ()) (hh : Publishes t head)
    (hb : Got t (.encodePointer head) bytes) : Permits terms t (.write .latest bytes)
  | current {bytes} (hc : Got t .beginCommit ()) : Permits terms t (.write .current bytes)
  | unstage {owner} : Permits terms t (.delete (.pendingHead owner))
  | persist {next} (h : Adopts t terms.state next) : Permits terms t (.persistState next)
  | apply {snapshot expected next}
    (h : Applies t terms.state terms.careful snapshot expected next) :
    Permits terms t (.applyChecked snapshot expected next)
  | receipt {pointer receipt snapshot} (hs : Fetched t pointer snapshot)
    (hc : snapshot.syncContentHash = .ok receipt.contentHash) :
    Permits terms t (.recordReceipt pointer receipt)

variable {head : RemoteSyncPointer}

variable {r : RemoteHeads}

section Mono

theorem ReadHeads.mono (h : ReadHeads t heads) (hu : t <:+: u) : ReadHeads u heads := by
  have ⟨v, r, hv, hr, he⟩ := h
  exact ⟨v, r, hv.trans hu, hr, he⟩

-- Everything that was answered in one trace was answered in the other one, too.
def Embeds (t u : CloudTrace) : Prop :=
  ∀ c (x : Answer c), Got t c x → Got u c x

theorem Embeds.of_subset (h : t ⊆ u) : Embeds t u :=
  fun _ _ hg => h hg

theorem Readable.lift (h : Readable t head) (hu : Embeds t u) :
    Readable u head := by
  cases h
  case device hp hg hd hc => exact .device hp (hu _ _ hg) hd hc
  case shared hr hd => exact .shared (hu _ _ hr) (hu _ _ hd)

theorem Readable.mono (h : Readable t head) (hu : t ⊆ u) :
    Readable u head :=
  h.lift (.of_subset hu)

theorem Fetched.lift
    (h : Fetched t head snapshot) (hu : Embeds t u) : Fetched u head snapshot :=
  ⟨h.decoded.imp fun _ hg => hu _ _ hg, h.fits⟩

theorem Matches.lift (h : Matches t head) (hu : Embeds t u) :
    Matches u head := by
  have ⟨hr, built, hash, hb, hs, hc⟩ := h
  refine ⟨hr.lift hu, built, hash, hu _ _ hb, hs, ?_⟩
  rcases hc with ⟨snapshot, hf, hc⟩ | ⟨receipt, hg, hc⟩
  · exact .inl ⟨snapshot, hf.lift hu, hc⟩
  · exact .inr ⟨receipt, hu _ _ hg, hc⟩

theorem Adopts.lift (h : Adopts t state next) (hu : Embeds t u) :
    Adopts u state next := by
  cases h
  case same hc hr => exact .same hc hr
  case head hh hc hr => exact .head (hh.imp (hu _ _ ·) (·.lift hu)) hc hr
  case renewed hh ha hc hr => exact .renewed (hh.lift hu) ha hc hr

theorem Applies.lift {careful : Prop}
    {expected : String} (h : Applies t state careful snapshot expected next) (hu : Embeds t u) :
    Applies u state careful snapshot expected next where
  head := by
    have ⟨head, hh, hn⟩ := h.head
    exact ⟨head, hh.imp (fun hp => ⟨hu _ _ hp.1, hp.2⟩) fun hr => ⟨hr.1.lift hu, hr.2.lift hu⟩, hn⟩
  continues := h.continues
  unchanged hc := (h.unchanged hc).imp fun _ hb => ⟨hu _ _ hb.1, hb.2⟩

theorem Permits.lift (h : Permits terms t c) (hc : c.isHeadless) (hu : Embeds t u) :
    Permits terms u c := by
  cases h
  case staging h => exact .staging h
  case head => cases hc
  case latest hk hh hb => exact .latest (hu _ _ hk) (hu _ _ hh) (hu _ _ hb)
  case current hk => exact .current (hu _ _ hk)
  case unstage => exact .unstage
  case persist h => exact .persist (h.lift hu)
  case apply h => exact .apply (h.lift hu)
  case receipt hs hk => exact .receipt (hs.lift hu) hk

theorem Commits.append (h : Commits t terms head)
    (hu : Unwritten u) : Commits (t ++ u) terms head where
  origin := by
    rcases h.origin with ⟨built, hg, hb⟩ | ⟨hd, hg⟩
    · exact .inl ⟨built, hg.left, hb⟩
    · exact .inr ⟨hd, hg.left⟩
  ticks := by
    have ⟨r, previous, clock, hr, ht⟩ := h.ticks
    exact ⟨r, previous, clock, hr.mono (List.prefix_append t u).isInfix, ht⟩
  single hc := by
    have ⟨v, r, hv, hr, hn, hk, hs⟩ := h.single hc
    refine ⟨v, r, hv.trans (List.prefix_append t u).isInfix, hr, hn, hk, ?_⟩
    intro selected hm
    rcases hs selected hm with hs | ⟨snapshot, hf, hs⟩
    · exact .inl hs
    · exact .inr ⟨snapshot, hf.mono (by simp), hs⟩
  first := h.first.append hu

theorem Commits.of_newRevision
    {previous : Option SnapshotSyncClock} {clock : SnapshotSyncClock} (hd : head.deviceId = terms.device)
    (hg : Got t .newRevision head.revisionId) (hr : ReadHeads t r)
    (hs : terms.shown r) (hp : previous = terms.state.lastSyncedClock ∨ previous = none)
    (hc : r.nextClock previous terms.device = .ok clock) (hk : head.syncClock = some clock)
    (hn : ¬ terms.careful) (hu : Unwritten t) : Commits t terms head where
  origin := .inr ⟨hd, hg⟩
  ticks := ⟨r, previous, clock, hr, hs, hp, hc, hk⟩
  single h := absurd h hn
  first := hu

theorem obeys_of_staging {p : CloudSync α} (h : p.Only (·.isStaging terms.device)) :
    p.Obeys (Permits terms) t :=
  h.obeys fun _ _ => .staging

theorem obeys_of_passive {p : CloudSync α} (h : p.Only (·.isPassive)) :
    p.Obeys (Permits terms) t :=
  obeys_of_staging (staging_of_passive h)

end Mono

section Commit

theorem runs_writeRecord (h : Runs (writeRecord path record) t (.ok ())) :
    Got t (.write path (SnapshotFormat.encodeHead record)) () := by
  rw [writeRecord] at h
  split at h
  case isTrue => simp [runs_fail] at h
  obtain ⟨_, t, rfl, _⟩ := runs_perform_bind_ok.mp h
  exact .head _

theorem runs_publish (h : Runs (publish head) t (.ok ())) : Publishes t head := by
  obtain ⟨_, t₁, t₂, rfl, h₁, _⟩ := runs_bind_ok.mp h
  exact (runs_writeRecord h₁).left

theorem obeys_publish (hb : Got t .beginCommit ()) (h : Commits t terms head) :
    (publish head).Obeys (Permits terms) t := by
  refine obeys_bind ?_ fun _ _ _ => ?_
  · refine obeys_ite (fun _ => obeys_fail) fun _ => ?_
    exact obeys_perform_bind (.head hb h) fun _ => obeys_of_passive (passive_verifyRecord _ _ _)
  · exact obeys_bind (obeys_attempt (obeys_perform .unstage)) fun _ _ _ => obeys_pure

theorem obeys_verifyPointer (hc : Got t .beginCommit ()) (hp : Publishes t head)
    (hb : Got t (.encodePointer head) bytes) (capacityLimited first : Bool) (attempts : Nat) :
    (verifyPointer head bytes capacityLimited first attempts).Obeys
      (Permits terms) t := by
  induction attempts generalizing first t
  case zero => exact obeys_fail
  case succ attempts hi =>
    refine obeys_bind (obeys_when fun _ => obeys_perform (.latest hc hp hb)) fun u _ _ => ?_
    refine obeys_bind (obeys_attempt (obeys_of_passive passive_loadSyncPointer)) fun v r _ => ?_
    have hn := hi (t := t ++ u ++ v) hc.left.left hp.left.left hb.left.left false
    cases r
    case ok => exact obeys_ite (fun _ => obeys_pure) fun _ => hn
    case error => exact obeys_ite (fun _ => hn) fun _ => obeys_fail

theorem obeys_writeSyncPointer (hc : Got t .beginCommit ()) (hp : Publishes t head) :
    (writeSyncPointer head).Obeys (Permits terms) t := by
  refine obeys_perform_bind (.staging rfl) fun bytes => ?_
  refine obeys_perform_bind (.staging rfl) fun capacity => ?_
  refine obeys_verifyPointer hc.left.left hp.left.left ?_ _ _ _
  simp [Got]

theorem obeys_commitHead (h : Commits t terms head) (bytes : Bytes) :
    (commitHead head bytes).Obeys (Permits terms) t := by
  refine obeys_perform_bind (.staging rfl) fun begun => ?_
  have hc : Got (t ++ [⟨.beginCommit, .ok begun⟩]) .beginCommit () := Got.right (.head _)
  refine obeys_bind (obeys_publish hc (h.append (unwritten_singleton rfl _)))
    fun u _ hu => ?_
  have hp : Publishes (t ++ [⟨.beginCommit, .ok begun⟩] ++ u) head := (runs_publish hu).right
  refine obeys_bind (obeys_attempt (obeys_writeSyncPointer hc.left hp)) fun _ _ _ => ?_
  exact obeys_bind (obeys_attempt (obeys_perform (.current hc.left.left))) fun _ _ _ => obeys_pure

theorem runs_commitHead (h : Runs (commitHead head bytes) t (.ok ())) : Publishes t head := by
  obtain ⟨_, t, rfl, h₁⟩ := runs_perform_bind_ok.mp h
  obtain ⟨_, t₁, t₂, rfl, h₂, _⟩ := runs_bind_ok.mp h₁
  exact .tail _ (runs_publish h₂).left

end Commit

section Prepare

theorem runs_portable {r : Except PortableSnapshotError α} :
    Runs (portable r) t (.ok a) ↔ t = [] ∧ r = .ok a := by
  cases r <;> simp [portable, runs_pure, runs_fail, eq_comm]

theorem runs_portable_bind_ok {r : Except PortableSnapshotError α} {f : α → CloudSync β} {b : β} :
    Runs (portable r >>= f) t (.ok b) ↔ ∃ a, r = .ok a ∧ Runs (f a) t (.ok b) := by
  simp [runs_bind_ok, runs_portable]

theorem obeys_portable_bind {r : Except PortableSnapshotError α} {f : α → CloudSync β}
    (hf : ∀ a, r = .ok a → (f a).Obeys P t) : (portable r >>= f).Obeys P t := by
  cases r
  case ok a => exact hf a rfl
  case error => exact obeys_fail

theorem readable_of_mem_heads (h : Runs readHeads t (.ok r)) (hh : head ∈ r.heads) : Readable t head := by
  have ⟨paths, records, hr⟩ := runs_readHeads h
  exact hr.mem_heads.mp hh

omit [SnapshotFormat] in
theorem mem_heads_of_mem_maximal
    (h : head ∈ r.maximal) : head ∈ r.heads :=
  List.mem_of_mem_filter h

theorem readable_of_selected (h : Runs readHeads t (.ok r)) :
    ∀ selected ∈ r.selected, Readable t selected := by
  intro selected hs
  obtain ⟨paths, records, hr⟩ := runs_readHeads h
  exact hr.mem_heads.mp (mem_heads_of_mem_maximal (hr.collects.selected selected hs))

-- What is known of an operation that begins with something it has looked at before.
structure Prepares (t : CloudTrace) (careful : Prop) (shown : RemoteHeads → Prop)
    (prepared : PreparedSync) : Prop where
  built : ∃ built, Got t .buildSnapshot built ∧
    (prepared.localSnapshot = built ∨ built.recalculateHash = .ok prepared.localSnapshot)
  heads : ReadHeads t prepared.heads
  accepted : shown prepared.heads
  asRead : careful → ∃ u, u <:+: t ∧ Runs readHeads u (.ok prepared.heads)
  selected : ∀ head ∈ prepared.heads.selected, Readable t head
  remote : ∀ snapshot ∈ prepared.remote, ∃ head ∈ prepared.heads.selected, Fetched t head snapshot

variable {careful : Prop} {shown : RemoteHeads → Prop}

theorem Prepares.append (h : Prepares t careful shown prepared) (u : CloudTrace) :
    Prepares (t ++ u) careful shown prepared where
  built := h.built.imp fun _ hb => ⟨hb.1.left, hb.2⟩
  heads := h.heads.mono (List.prefix_append t u).isInfix
  accepted := h.accepted
  asRead hc := (h.asRead hc).imp fun _ hr => ⟨hr.1.trans (List.prefix_append t u).isInfix, hr.2⟩
  selected head hh := (h.selected head hh).mono (by simp)
  remote snapshot hs := (h.remote snapshot hs).imp fun _ hf => ⟨hf.1, hf.2.mono (by simp)⟩

theorem Prepares.weaken (h : Prepares t careful shown prepared) (hc : careful' → careful) :
    Prepares t careful' shown prepared :=
  { h with asRead := fun h' => h.asRead (hc h') }

theorem runs_prepareSync (hp : ∀ prepared ∈ given, Prepares t careful shown prepared)
    (hn : given = none → ∀ r, shown r) (h : Runs (prepareSync given) u (.ok prepared)) :
    Prepares (t ++ u) careful shown prepared := by
  cases given
  case some prepared =>
    obtain ⟨rfl, rfl⟩ := runs_pure_ok.mp h
    exact (hp _ rfl).append []
  case none =>
    obtain ⟨built, u, rfl, h₁⟩ := runs_perform_bind_ok.mp h
    obtain ⟨heads, h₂, rfl⟩ := runs_bind_pure_ok.mp h₁
    have hi : u <:+: t ++ ⟨.buildSnapshot, .ok built⟩ :: u := by
      rw [List.append_cons]
      exact (List.suffix_append ..).isInfix
    exact {
      built := ⟨built, by simp [Got], .inl rfl⟩
      heads := ⟨u, heads, hi, h₂, rfl⟩
      accepted := hn rfl heads
      asRead := fun _ => ⟨u, hi, h₂⟩
      selected := fun head hh => (readable_of_selected h₂ head hh).mono hi.subset
      remote := nofun
    }

end Prepare

end CloudSync

end NyaTerm

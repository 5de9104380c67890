import NyaTerm.Session.Theorems.EventQueue

open List

namespace NyaTerm.Session

open SessionEvent Config

variable {i : Inner π} {event : SessionEvent π}
  {session : SessionId} {c c' : Config π}

section Items

theorem items_of_ne (h : event.sessionId ≠ session) : event.items session = [] :=
  if_neg h

theorem items_of_cleanup (h : event.isCleanupFailed) (session : SessionId) :
    event.items session = [] := by
  cases event
  case cleanupFailed => exact ite_self _
  all_goals cases h

theorem items_output (s : SessionId) (first last : List UInt8) :
    (output s (first ++ last) : SessionEvent π).items session =
      (output s first : SessionEvent π).items session ++
        (output s last : SessionEvent π).items session := by
  by_cases hs : s = session
  · simp [items, sessionId, hs]
  · simp [items, sessionId, hs]

theorem itemsOf_append (xs ys : List (SessionEvent π)) :
    itemsOf session (xs ++ ys) = itemsOf session xs ++ itemsOf session ys :=
  flatMap_append

theorem itemsOf_cons (x : SessionEvent π) (xs : List (SessionEvent π)) :
    itemsOf session (x :: xs) = x.items session ++ itemsOf session xs :=
  rfl

theorem itemsOf_eq_nil {events : List (SessionEvent π)} (h : ∀ e ∈ events, e.items session = []) :
    itemsOf session events = [] :=
  flatMap_eq_nil_iff.mpr h

theorem itemsOf_pieces (event : SessionEvent π) :
    itemsOf session (pieces event) = event.items session := by
  cases event
  case output s data =>
    have h : ∀ chunks : List (List UInt8),
        itemsOf session (chunks.map (output s) : List (SessionEvent π)) =
          (output s chunks.flatten : SessionEvent π).items session := by
      intro chunks
      induction chunks
      case nil =>
        rw [items]
        split <;> rfl
      case cons chunk chunks ih =>
        rw [map_cons, itemsOf_cons, ih, flatten_cons, items_output]
    rw [pieces, h, Bytes.flatten_chunks (by decide)]
  all_goals exact append_nil _

theorem sessionId_of_pieces (h : piece ∈ pieces event) : piece.sessionId = event.sessionId := by
  cases event
  case output s data =>
    obtain ⟨chunk, -, rfl⟩ := mem_map.mp h
    rfl
  all_goals
    cases mem_singleton.mp h
    rfl

theorem itemsOf_filter {other : SessionId} (h : other ≠ session) (entries : List (Entry π)) :
    itemsOf session ((entries.filter (·.sessionId ≠ other)).map (·.event)) =
      itemsOf session (entries.map (·.event)) := by
  induction entries
  case nil => rfl
  case cons entry entries ih =>
    rw [filter_cons]
    split
    case isTrue => rw [map_cons, map_cons, itemsOf_cons, itemsOf_cons, ih]
    case isFalse hn =>
      have he : entry.sessionId = other := by simpa using hn
      rw [map_cons, itemsOf_cons, items_of_ne (fun hs => h (he.symm.trans hs)), ih,
        nil_append]

end Items

section Drain

-- A drain takes the events of a session or leaves them, all of them alike.
def Alike (session : SessionId) (belongs : Entry π → Bool) : Prop :=
  ∀ x y : Entry π, x.sessionId = session → y.sessionId = session →
    x.event.isCleanupFailed = false → y.event.isCleanupFailed = false → belongs x = belongs y

theorem alike_all (session : SessionId) : Alike session (fun _ : Entry π => true) :=
  fun _ _ _ _ _ _ => rfl

theorem belongs_of_session (h : entry.event.isCleanupFailed = false)
    (consumer : ConsumerId) : i.eventBelongsToConsumer consumer entry =
      decide (i.consumers entry.sessionId = some consumer) := by
  obtain ⟨call, event⟩ := entry
  cases event
  case cleanupFailed => cases h
  all_goals rfl

theorem alike_consumer (session : SessionId) (i : Inner π) (consumer : ConsumerId) :
    Alike session (i.eventBelongsToConsumer consumer) := by
  intro x y hx hy hcx hcy
  rw [belongs_of_session hcx, belongs_of_session hcy, hx, hy]

theorem items_before (ha : Alike session belongs) {before : List (Entry π)}
    (hb : ∀ e ∈ before, belongs e = false) (he : belongs entry) :
    itemsOf session (before.map (·.event)) = [] ∨ entry.event.items session = [] := by
  by_cases hs : entry.sessionId = session ∧ entry.event.isCleanupFailed = false
  · refine .inl (itemsOf_eq_nil fun e hm => ?_)
    obtain ⟨x, hx, rfl⟩ := mem_map.mp hm
    by_cases hxs : x.sessionId = session
    · cases hxc : x.event.isCleanupFailed
      case true => exact items_of_cleanup hxc session
      case false =>
        have := ha entry x hs.1 hxs hs.2 hxc
        rw [he, hb x hx] at this
        cases this
    · exact items_of_ne hxs
  · refine .inr ?_
    by_cases hes : entry.sessionId = session
    · exact items_of_cleanup (by simpa using fun h => hs ⟨hes, h⟩) session
    · exact items_of_ne hes

theorem drainLoop_items {belongs : Entry π → Bool} (ha : Alike session belongs)
    {budget : Option Nat} (n : Nat) (stats : Stats) (i : Inner π) :
    itemsOf session (i.events.map (·.event)) =
      itemsOf session ((drainLoop belongs budget n stats i).1.map (·.event)) ++
        itemsOf session ((drainLoop belongs budget n stats i).2.2.events.map (·.event)) := by
  refine drainLoop_rule (R := fun entries i final =>
    itemsOf session (i.events.map (·.event)) =
      itemsOf session (entries.map (·.event)) ++ itemsOf session (final.events.map (·.event)))
    (fun i => rfl) ?_ ?_ n stats i
  · intro i before call s first last after later final he hb hbe ih
    have hsilent := items_before ha hb hbe
    rw [items_output] at hsilent
    rw [he, map_append, map_cons, itemsOf_append, itemsOf_cons, items_output]
    rw [map_append, map_cons, itemsOf_append, itemsOf_cons] at ih
    rw [map_cons, itemsOf_cons, append_assoc, append_assoc, ← ih]
    rcases hsilent with hs | hs
    · rw [hs, nil_append, nil_append]
    · obtain ⟨hf, hl⟩ := append_eq_nil_iff.mp hs
      rw [hf, hl]
      rfl
  · intro i before entry after later final he hb hbe ih
    have hsilent := items_before ha hb hbe
    rw [he, map_append, map_cons, itemsOf_append, itemsOf_cons]
    rw [map_append, itemsOf_append] at ih
    rw [map_cons, itemsOf_cons, append_assoc, ← ih]
    rcases hsilent with hs | hs
    · rw [hs, nil_append, nil_append]
    · rw [hs, nil_append, nil_append]

end Drain

section Order

theorem accepts_iff : i.accepts session ↔
    i.closed = false ∧ i.cancelledSessions session = false := by
  simp [Inner.accepts]

theorem pushed_snoc (seen : List (Label π)) (a : Label π) :
    pushed session (seen ++ [a]) = pushed session seen ++ a.pushedItems session := by
  simp [pushed]

theorem drained_snoc (seen : List (Label π)) (a : Label π) :
    drained session (seen ++ [a]) = drained session seen ++ a.drainedItems session := by
  simp [drained]

theorem cleanup_cases (i : Inner π) (call : Nat) (s : SessionId) (consumer : Option ConsumerId)
    (operation : CleanupOperation) :
    i.pushCleanupFailure call s consumer operation = i ∨
      i.pushCleanupFailure call s consumer operation =
        { i with events := i.events ++ [⟨call, .cleanupFailed s consumer operation⟩] } := by
  unfold Inner.pushCleanupFailure
  split
  case isTrue => exact .inl rfl
  split
  case isTrue => exact .inl rfl
  case isFalse => exact .inr rfl

-- What the call at its turn still has to push is all of one session.
def OneSession (c : Config π) : Prop :=
  ∀ t, c.turn = some t → ∀ e ∈ t.todo, e.sessionId = t.session

theorem Step.one (h : Step c a c') (ho : OneSession c) : OneSession c' := by
  cases h
  case acquire =>
    intro t ht e he
    cases ht
    exact sessionId_of_pieces he
  case push ht _ =>
    intro t h e he
    cases h
    exact ho _ ht e (.tail _ he)
  case abort =>
    intro t h e he
    cases h
    cases he
  case release | drop => exact nofun
  all_goals exact ho

-- All that was pushed for a session has been drained, is queued or is still to be pushed, in this
-- order. Only the end of it may be lost, when the queue is closed.
structure Ordered (session : SessionId) (seen : List (Label π)) (c : Config π) : Prop where
  active : c.turn ≠ none → c.inner.producerActive
  live : c.inner.cancelledSessions session = false
  order : ∃ lost, pushed session seen = drained session seen ++ (c.queued session ++ lost) ∧
    (c.inner.closed = false → lost = itemsOf session c.todo)

theorem Ordered.keep (ho : Ordered session seen c) (hp : a.pushedItems session = [])
    (hd : a.drainedItems session = []) (ht : c'.turn = c.turn)
    (hq : c'.queued session = c.queued session)
    (ha : c.inner.producerActive → c'.inner.producerActive)
    (hl : c'.inner.cancelledSessions session = false)
    (hc : c'.inner.closed = false → c.inner.closed = false) : Ordered session (seen ++ [a]) c' := by
  obtain ⟨lost, ho₁, ho₂⟩ := ho.order
  refine ⟨fun h => ha (ho.active (ht ▸ h)), hl, lost, ?_, fun h => ?_⟩
  · rw [pushed_snoc, drained_snoc, hp, hd, append_nil,
      append_nil, hq, ho₁]
  · rw [ho₂ (hc h), todo, todo, ht]

theorem queued_resumeOutput (i : Inner π) :
    (i.resumeOutputIfBelowLowWatermark.events = i.events ∧
      i.resumeOutputIfBelowLowWatermark.producerActive = i.producerActive) ∧
    i.resumeOutputIfBelowLowWatermark.cancelledSessions = i.cancelledSessions ∧
      i.resumeOutputIfBelowLowWatermark.closed = i.closed := by
  unfold Inner.resumeOutputIfBelowLowWatermark
  split
  case isTrue | isFalse => exact ⟨⟨rfl, rfl⟩, rfl, rfl⟩

theorem cancelSession_spec (i : Inner π) (s : SessionId) :
    ((i.cancelSession s).events = i.events.filter (·.sessionId ≠ s) ∧
      (i.cancelSession s).producerActive = i.producerActive) ∧
    (i.cancelSession s).cancelledSessions =
        (fun t => if t = s then true else i.cancelledSessions t) ∧
      (i.cancelSession s).closed = i.closed :=
  queued_resumeOutput _

theorem Ordered.drains (ho : Ordered session seen c) (ha : Alike session belongs) :
    Ordered session (seen ++ [.drained (drainLoop belongs budget n stats c.inner).1]) { c with
      inner := (drainLoop belongs budget n stats c.inner).2.2.resumeOutputIfBelowLowWatermark } := by
  have hi := @drainLoop_items _ _ _ ha budget n stats c.inner
  have hs := @drainLoop_control _ belongs budget n stats c.inner
  obtain ⟨⟨hev, hact⟩, hcan, hclo⟩ :=
    queued_resumeOutput (drainLoop belongs budget n stats c.inner).2.2
  obtain ⟨lost, ho₁, ho₂⟩ := ho.order
  refine ⟨fun h => ?_, ?_, lost, ?_, fun h => ?_⟩
  · rw [hact, hs.active]
    exact ho.active h
  · rw [hcan, hs.cancelled]
    exact ho.live
  · rw [pushed_snoc, drained_snoc, queued, hev, ho₁,
      queued, hi]
    simp [Label.pushedItems, Label.drainedItems]
  · rw [hclo, hs.closed] at h
    exact ho₂ h

theorem Step.ordered (ha : a ≠ .cancel session ∧ a ≠ .dropped session) (h : Step c a c')
    (hone : OneSession c) (ho : Ordered session seen c) : Ordered session (seen ++ [a]) c' := by
  obtain ⟨lost, ho₁, ho₂⟩ := ho.order
  cases h
  case begin | refuse | withdraw => exact ho.keep rfl rfl rfl rfl id ho.live id
  case acquire call after _ hacc hidle =>
    have hturn : c.turn = none := by
      by_contra ht
      rw [ho.active ht] at hidle
      cases hidle
    have hlost : lost = [] := by
      rw [ho₂ (accepts_iff.mp hacc).1, todo, hturn]
      rfl
    refine ⟨fun _ => rfl, ho.live, call.event.items session, ?_, fun _ => ?_⟩
    · rw [pushed_snoc, drained_snoc, ho₁, hlost]
      simp [Label.pushedItems, Label.drainedItems, queued]
    · exact (itemsOf_pieces call.event).symm
  case push id s event todo i ht hp =>
    obtain ⟨hacc, happ⟩ := push_pushed hp
    have hlost := ho₂ (accepts_iff.mp hacc).1
    rw [todo_of_turn ht, itemsOf_cons] at hlost
    refine ⟨fun _ => ?_, ?_, itemsOf session todo, ?_, fun _ => rfl⟩
    · rw [happ.active]
      exact ho.active (by rw [ht]; simp)
    · rw [happ.cancelled]
      exact ho.live
    · rw [pushed_snoc, drained_snoc, ho₁, hlost]
      simp [Label.pushedItems, Label.drainedItems, queued, happ.events, itemsOf]
  case wait ht hp =>
    obtain ⟨rfl, -⟩ := push_waits hp
    exact ho.keep rfl rfl rfl rfl id ho.live id
  case abort id s event todo ht hp =>
    have hrefused := push_refused hp
    refine ⟨fun _ => ho.active (by rw [ht]; simp), ho.live, lost, ?_, fun h => ?_⟩
    · rw [pushed_snoc, drained_snoc, ho₁]
      simp [Label.pushedItems, Label.drainedItems, queued]
    · -- The session of the call is cancelled, so that it is another one.
      have hne : event.sessionId ≠ session := by
        intro he
        rw [he, Bool.eq_false_iff] at hrefused
        exact hrefused (accepts_iff.mpr ⟨h, ho.live⟩)
      rw [ho₂ h, todo_of_turn ht]
      refine itemsOf_eq_nil fun e he => items_of_ne ?_
      rw [hone _ ht e he, ← hone _ ht event (.head _)]
      exact hne
  case release ht =>
    refine ⟨fun h => absurd rfl h, ho.live, lost, ?_, fun h => ?_⟩
    · rw [pushed_snoc, drained_snoc, ho₁]
      simp [Label.pushedItems, Label.drainedItems, queued]
    · rw [ho₂ h, todo_of_turn ht]
      rfl
  case drop id s event todo ht =>
    have hne : s ≠ session := fun h => ha.2 (h ▸ rfl)
    refine ⟨fun h => absurd rfl h, ho.live, lost, ?_, fun h => ?_⟩
    · rw [pushed_snoc, drained_snoc, ho₁]
      simp [Label.pushedItems, Label.drainedItems, queued]
    · rw [ho₂ h, todo_of_turn ht]
      refine itemsOf_eq_nil fun e he => items_of_ne ?_
      rw [hone _ ht e he]
      exact hne
  case cleanupFailed s consumer operation =>
    rcases cleanup_cases c.inner c.nextCall s consumer operation with hq | hq
    · exact ho.keep rfl rfl rfl (by rw [hq]; rfl) (by rw [hq]; exact id) (by rw [hq]; exact ho.live)
        (by rw [hq]; exact id)
    · refine ho.keep rfl rfl rfl ?_ (by rw [hq]; exact id) (by rw [hq]; exact ho.live)
        (by rw [hq]; exact id)
      rw [queued, hq, map_append, itemsOf_append, map_cons, itemsOf_cons,
        items_of_cleanup rfl]
      exact append_nil _
  case cancel s =>
    have hne : s ≠ session := fun h => ha.1 (h ▸ rfl)
    obtain ⟨⟨hev, hact⟩, hcan, hclo⟩ := cancelSession_spec c.inner s
    refine ho.keep rfl rfl rfl ?_ (fun h => hact.trans h) ?_ (fun h => hclo.symm.trans h)
    · rw [queued, hev]
      exact itemsOf_filter hne _
    · rw [hcan]
      exact (if_neg fun h => hne h.symm).trans ho.live
  case resume s =>
    unfold Inner.resumeSession
    split
    case isTrue => exact ho.keep rfl rfl rfl rfl id ho.live id
    refine ho.keep rfl rfl rfl rfl id ?_ id
    dsimp only
    rw [ho.live]
    exact ite_self _
  case assign s consumer =>
    unfold Inner.assignConsumer
    split
    case isTrue | isFalse => exact ho.keep rfl rfl rfl rfl id ho.live id
  case clear s consumer =>
    unfold Inner.clearConsumer
    split
    case isTrue | isFalse => exact ho.keep rfl rfl rfl rfl id ho.live id
  case close => exact ho.keep rfl rfl rfl rfl id ho.live (fun h => by cases h)
  case drain n budget => exact ho.drains (alike_all session)
  case drainForConsumer consumer n budget => exact ho.drains (alike_consumer session c.inner consumer)

theorem Ordered.initial (session : SessionId) : Ordered session [] (.initial : Config π) :=
  ⟨fun h => absurd rfl h, rfl, [], rfl, fun _ => rfl⟩

theorem ordered_of_run {labels : List (Label π)} (h : Run .initial labels c)
    (hn : .cancel session ∉ labels) (hd : .dropped session ∉ labels) :
    Ordered session labels c := by
  have ho : OneSession c ∧ Ordered session ([] ++ labels) c :=
    h.relation (I := fun seen c => OneSession c ∧ Ordered session seen c)
      (G := fun a => a ≠ .cancel session ∧ a ≠ .dropped session)
      (fun ha h ho => ⟨h.one ho.1, h.ordered ha ho.1 ho.2⟩)
      (fun a ha => ⟨ne_of_mem_of_not_mem ha hn, ne_of_mem_of_not_mem ha hd⟩)
      ⟨nofun, .initial session⟩
  exact ho.2

end Order

namespace Sample

def block : SessionEvent Unit :=
  .output ['a'] (replicate outputEventLimit 0)

-- One chunk more than there is space for.
def flood : SessionEvent Unit :=
  .output ['a'] (replicate (33 * outputEventLimit) 0)

def notice : SessionEvent Unit :=
  .other ['a'] ()

theorem pieces_flood : pieces flood = replicate 33 block := by
  have hchunks : Bytes.chunks outputEventLimit (replicate (33 * outputEventLimit) (0 : UInt8)) =
      replicate 33 (replicate outputEventLimit 0) := by
    rw [Bytes.chunks_eq (by decide) length_replicate, eq_replicate_iff]
    refine ⟨by rw [length_map, length_range], fun chunk hc => ?_⟩
    obtain ⟨i, hi, rfl⟩ := mem_map.mp hc
    rw [drop_replicate, take_replicate, ← Nat.sub_mul, Nat.min_eq_left]
    exact Nat.le_mul_of_pos_left _ (Nat.sub_pos_of_lt (mem_range.mp hi))
  rw [flood, pieces, hchunks, map_replicate]
  rfl

-- Blocks that there is space for are pushed one after the other.
theorem run_pushes {inner : Inner Unit} (m : Nat) (ha : inner.accepts ['a'])
    (hb : 0 < m → inner.outputBackpressured = false)
    (hq : inner.queuedOutputBytes + m * outputEventLimit ≤ outputLimit) :
    ∃ inner' : Inner Unit, inner'.accepts ['a'] ∧
      inner'.events = inner.events ++ replicate m ⟨0, block⟩ ∧
      inner'.queuedOutputBytes = inner.queuedOutputBytes + m * outputEventLimit ∧
      ∀ {todo rest c}, Run ⟨inner', 1, [], some ⟨0, ['a'], todo⟩⟩ rest c →
        Run ⟨inner, 1, [], some ⟨0, ['a'], replicate m block ++ todo⟩⟩
          (replicate m .pushed ++ rest) c := by
  induction m generalizing inner
  case zero => exact ⟨inner, ha, (append_nil _).symm, by simp, id⟩
  case succ m ih =>
    rw [Nat.succ_mul] at hq
    have hpush : ∃ next, inner.push 0 block = .pushed next ∧
        next.outputBackpressured = decide (outputLimit ≤ next.queuedOutputBytes) := by
      have hfits : inner.queuedOutputBytes + outputEventLimit ≤ outputLimit := by omega
      simp [Inner.push, block, Inner.pushOutputChunk, ha, hb, hfits]
    obtain ⟨next, hpush, hpressure⟩ := hpush
    have hp := (push_pushed hpush).2
    have hbytes : next.queuedOutputBytes = inner.queuedOutputBytes + outputEventLimit := by
      rw [hp.bytes, block, SessionEvent.outputBytes, length_replicate]
    have hnext : next.accepts ['a'] := by
      rwa [accepts_iff, hp.closed, hp.cancelled, ← accepts_iff]
    obtain ⟨inner', ha', he, hq', hrun⟩ := @ih next hnext
      (fun hm => by
        have := Nat.le_mul_of_pos_left outputEventLimit hm
        have : 0 < outputEventLimit := by decide
        rw [hpressure, decide_eq_false_iff_not]
        omega)
      (by omega)
    refine ⟨inner', ha', ?_, by rw [hq', hbytes, Nat.succ_mul]; omega, fun h => ?_⟩
    · rw [he, hp.events, append_assoc]
      rfl
    · exact .cons (.push rfl hpush) (hrun h)

-- The future of the push of an event is dropped when it waits for space, and something is pushed
-- later.
def dropped (event : SessionEvent Unit) (later : List (Label Unit)) : List (Label Unit) :=
  .begin 0 event :: .acquired event :: (replicate 32 .pushed ++ .waited :: .dropped ['a'] :: later)

def noticed (entries : List (Entry Unit)) : List (Label Unit) :=
  [.begin 1 notice, .acquired notice, .pushed, .drained entries]

theorem run_dropped : ∃ inner : Inner Unit, inner.accepts ['a'] ∧
    inner.events = replicate 32 ⟨0, block⟩ ∧
      ∀ {later c}, Run ⟨{ inner with producerActive := false }, 1, [], none⟩ later c →
        Run .initial (dropped flood later) c := by
  obtain ⟨inner, ha, he, hq, hrun⟩ :=
    @run_pushes { Inner.new with producerActive := true } 32 rfl (fun _ => rfl) (by decide)
  have hwait : inner.push 0 block = .waits { inner with outputBackpressured := true } := by
    rw [block, Inner.push, Inner.pushOutputChunk, if_neg (by simp [ha]), if_neg]
    rw [length_replicate, hq]
    exact fun h => absurd h.2 (by decide)
  refine ⟨{ inner with outputBackpressured := true }, ha, he, fun h => ?_⟩
  refine .cons (.begin rfl) (.cons (@Step.acquire _ _ [] ⟨0, flood⟩ [] rfl rfl rfl) ?_)
  rw [pieces_flood]
  exact @hrun [block] _ _ (.cons (.wait rfl hwait) (.cons (.drop rfl) h))

theorem push_notice {i : Inner Unit} (ha : i.accepts ['a']) :
    i.push 1 notice = .pushed { i with events := i.events ++ [⟨1, notice⟩] } := by
  simp [Inner.push, notice, SessionEvent.sessionId, ha]

theorem drained_noticed (event : SessionEvent Unit) (entries : List (Entry Unit)) :
    drained ['a'] (dropped event (noticed entries)) = itemsOf ['a'] (entries.map (·.event)) :=
  append_nil _

theorem pushed_noticed (event : SessionEvent Unit) (entries : List (Entry Unit)) :
    pushed ['a'] (dropped event (noticed entries)) = event.items ['a'] ++ [.inr notice] :=
  rfl

theorem items_flood :
    flood.items ['a'] = itemsOf ['a'] (replicate 32 block) ++ block.items ['a'] := by
  rw [← itemsOf_pieces, pieces_flood, replicate_succ', itemsOf_append]
  exact congrArg _ (append_nil _)

end Sample

section Cancel

theorem mem_calls {id : Nat} : id ∈ c.calls session ↔
    (∃ w ∈ c.waiting, w.event.sessionId = session ∧ w.id = id) ∨
      ∃ t, c.turn = some t ∧ t.session = session ∧ t.id = id := by
  simp [calls, and_assoc]

-- No call is there that was not there before.
theorem calls_subset (hw : ∀ w ∈ c'.waiting, w ∈ c.waiting)
    (ht : ∀ t, c'.turn = some t → t.session = session → t.id ∈ c.calls session) :
    ∀ id ∈ c'.calls session, id ∈ c.calls session := by
  intro id hid
  rcases mem_calls.mp hid with ⟨w, hm, h⟩ | ⟨t, h, hts, rfl⟩
  · exact mem_calls.mpr (.inl ⟨w, hw w hm, h⟩)
  · exact ht t h hts

theorem at_turn {id : Nat} {todo : List (SessionEvent π)} (ht : c.turn = some ⟨id, s, todo⟩) :
    ∀ t, some (⟨id, s, todo'⟩ : Turn π) = some t → t.session = session → t.id ∈ c.calls session := by
  rintro t ⟨⟩ hts
  exact mem_calls.mpr (.inr ⟨_, ht, hts, rfl⟩)

theorem drainLoop_origin (n : Nat) (stats : Stats) (i : Inner π) :
    ∀ x, (x ∈ (drainLoop belongs budget n stats i).1 ∨
        x ∈ (drainLoop belongs budget n stats i).2.2.events) →
      ∃ y ∈ i.events, y.sessionId = x.sessionId ∧ y.call = x.call := by
  refine drainLoop_rule (R := fun entries i final => ∀ x, (x ∈ entries ∨ x ∈ final.events) →
      ∃ y ∈ i.events, y.sessionId = x.sessionId ∧ y.call = x.call)
    (fun i x hx => ?_) ?_ ?_ n stats i
  · exact ⟨x, hx.resolve_left not_mem_nil, rfl, rfl⟩
  · intro i before call s first last after later final he _ _ ih x hx
    simp only [mem_cons, or_assoc] at hx
    rcases hx with rfl | hx
    · exact ⟨⟨call, .output s (first ++ last)⟩, by simp [he], rfl, rfl⟩
    · obtain ⟨y, hy, hs, hc⟩ := ih x hx
      rcases mem_append.mp hy with hy | hy
      · exact ⟨y, by simp [he, hy], hs, hc⟩
      · rcases mem_cons.mp hy with rfl | hy
        · exact ⟨⟨call, .output s (first ++ last)⟩, by simp [he], hs, hc⟩
        · exact ⟨y, by simp [he, hy], hs, hc⟩
  · intro i before entry after later final he _ _ ih x hx
    simp only [mem_cons, or_assoc] at hx
    rcases hx with rfl | hx
    · exact ⟨x, by simp [he], rfl, rfl⟩
    · obtain ⟨y, hy, h⟩ := ih x hx
      exact ⟨y, by rw [he]; simp at hy ⊢; tauto, h⟩

-- Nothing of the old calls of a session is queued, and they are refused or over.
structure Dead (old : Nat → Prop) (session : SessionId) (c : Config π) : Prop where
  known : ∀ id, old id → id < c.nextCall
  queue : ∀ e ∈ c.inner.events, e.sessionId = session → ¬old e.call
  calls : c.inner.cancelledSessions session ∨ ∀ id ∈ c.calls session, ¬old id

section

variable (hd : Dead old session c)
include hd

theorem Dead.next : ¬old c.nextCall :=
  fun h => Nat.lt_irrefl _ (hd.known _ h)

theorem Dead.keep (hn : c.nextCall ≤ c'.nextCall)
    (hq : ∀ e ∈ c'.inner.events, ∃ y ∈ c.inner.events, y.sessionId = e.sessionId ∧ y.call = e.call)
    (hc : c.inner.cancelledSessions session → c'.inner.cancelledSessions session)
    (hs : ∀ id ∈ c'.calls session, id ∈ c.calls session) : Dead old session c' := by
  refine ⟨fun id h => Nat.lt_of_lt_of_le (hd.known id h) hn, fun e he hes => ?_, ?_⟩
  · obtain ⟨y, hy, hys, hyc⟩ := hq e he
    exact hyc ▸ hd.queue y hy (hys.trans hes)
  · exact hd.calls.imp hc fun h id hid => h id (hs id hid)

theorem Dead.drains : Dead old session { c with
      inner := (drainLoop belongs budget n stats c.inner).2.2.resumeOutputIfBelowLowWatermark } := by
  have hs := @drainLoop_control _ belongs budget n stats c.inner
  obtain ⟨⟨hev, -⟩, hcan, -⟩ := queued_resumeOutput (drainLoop belongs budget n stats c.inner).2.2
  refine hd.keep (Nat.le_refl _) (fun e he => ?_) (fun h => ?_) (fun id h => h)
  · rw [hev] at he
    exact drainLoop_origin n stats c.inner e (.inr he)
  · rw [hcan, hs.cancelled]
    exact h

end

theorem Step.dead (ha : ∀ calls, a = .resume session calls → ∀ id ∈ calls, ¬old id)
    (h : Step c a c') (hone : OneSession c) (hd : Dead old session c) : Dead old session c' := by
  have hsame : ∀ e ∈ c.inner.events, ∃ y ∈ c.inner.events, y.sessionId = e.sessionId ∧ y.call = e.call :=
    fun e he => ⟨e, he, rfl, rfl⟩
  cases h
  case begin event _ =>
    refine ⟨fun id h => Nat.lt_succ_of_lt (hd.known id h), hd.queue, hd.calls.imp id fun h id hid => ?_⟩
    rcases mem_calls.mp hid with ⟨w, hw, hws, rfl⟩ | ht
    · rcases mem_append.mp hw with hw | hw
      · exact h _ (mem_calls.mpr (.inl ⟨w, hw, hws, rfl⟩))
      · cases mem_singleton.mp hw
        exact hd.next
    · exact h id (mem_calls.mpr (.inr ht))
  case refuse before call after hw _ | withdraw before call after hw =>
    refine hd.keep (Nat.le_refl _) hsame id (calls_subset (fun w hm => ?_) fun t ht hts => ?_)
    · rw [hw]
      simp at hm ⊢
      tauto
    · exact mem_calls.mpr (.inr ⟨t, ht, hts, rfl⟩)
  case acquire before call after hw hacc hidle =>
    refine hd.keep (Nat.le_refl _) hsame id (calls_subset (fun w hm => ?_) fun t ht hts => ?_)
    · rw [hw]
      simp at hm ⊢
      tauto
    · cases ht
      exact mem_calls.mpr (.inl ⟨call, hw ▸ by simp, hts, rfl⟩)
  case push id s event todo i ht hp =>
    obtain ⟨hacc, happ⟩ := push_pushed hp
    have hids : ∀ id' ∈ calls { c with inner := i, turn := some ⟨id, s, todo⟩ } session,
        id' ∈ c.calls session := calls_subset (fun _ h => h) (at_turn ht)
    refine ⟨hd.known, fun e he hes => ?_, ?_⟩
    · rw [happ.events] at he
      rcases mem_append.mp he with he | he
      · exact hd.queue e he hes
      · -- The session takes events, so that none of its old calls is under way.
        cases mem_singleton.mp he
        rcases hd.calls with hc | hc
        · have hlive := (accepts_iff.mp hacc).2
          rw [hes.symm, Entry.sessionId, hlive] at hc
          cases hc
        · exact hc id (mem_calls.mpr
            (.inr ⟨_, ht, (hone _ ht event (.head _)).symm.trans hes, rfl⟩))
    · rw [happ.cancelled]
      exact hd.calls.imp_right fun h id' hid => h id' (hids id' hid)
  case wait ht hp =>
    obtain ⟨rfl, -⟩ := push_waits hp
    exact hd.keep (Nat.le_refl _) hsame id (fun id h => h)
  case abort id s event todo ht hp =>
    exact hd.keep (Nat.le_refl _) hsame (fun h => h) (calls_subset (fun _ h => h) (at_turn ht))
  case release | drop =>
    exact hd.keep (Nat.le_refl _) hsame (fun h => h)
      (calls_subset (fun _ h => h) nofun)
  case cleanupFailed s consumer operation =>
    rcases cleanup_cases c.inner c.nextCall s consumer operation with hq | hq
    · refine hd.keep (Nat.le_succ _) ?_ ?_ (fun id h => h)
      · rw [hq]
        exact hsame
      · rw [hq]
        exact id
    · rw [hq]
      refine ⟨fun id h => Nat.lt_succ_of_lt (hd.known id h), fun e he hes => ?_, hd.calls⟩
      rcases mem_append.mp he with he | he
      · exact hd.queue e he hes
      · cases mem_singleton.mp he
        exact hd.next
  case cancel s =>
    obtain ⟨⟨hev, -⟩, hcan, -⟩ := cancelSession_spec c.inner s
    refine hd.keep (Nat.le_refl _) (fun e he => ?_) (fun h => ?_) (fun id h => h)
    · rw [hev] at he
      exact hsame e (mem_filter.mp he).1
    · rw [hcan]
      dsimp only
      split
      case isTrue => rfl
      case isFalse => exact h
  case resume s =>
    unfold Inner.resumeSession
    split
    case isTrue => exact hd
    case isFalse =>
      by_cases hs : s = session
      · subst hs
        exact { hd with calls := .inr (ha _ rfl) }
      · refine hd.keep (Nat.le_refl _) hsame (fun h => ?_) (fun id h => h)
        exact (if_neg fun h => hs h.symm).trans h
  case assign s consumer =>
    unfold Inner.assignConsumer
    split
    case isTrue => exact hd
    case isFalse => exact hd.keep (Nat.le_refl _) hsame id (fun id h => h)
  case clear s consumer =>
    unfold Inner.clearConsumer
    split
    case isTrue => exact hd.keep (Nat.le_refl _) hsame id (fun id h => h)
    case isFalse => exact hd
  case close => exact hd.keep (Nat.le_refl _) hsame id (fun id h => h)
  case drain n budget | drainForConsumer consumer n budget => exact hd.drains

theorem Step.drained_dead (h : Step c (.drained entries) c') (hd : Dead old session c) :
    ∀ e ∈ entries, e.sessionId = session → ¬old e.call := by
  intro e he hes
  have horigin : ∃ y ∈ c.inner.events, y.sessionId = e.sessionId ∧ y.call = e.call := by
    cases h
    case drain | drainForConsumer => exact drainLoop_origin _ _ c.inner e (.inl he)
  obtain ⟨y, hy, hys, hyc⟩ := horigin
  exact hyc ▸ hd.queue y hy (hys.trans hes)

-- The ids of the calls so far are below the next one.
def Begun (seen : List (Label π)) (c : Config π) : Prop :=
  ∀ id event, .begin id event ∈ seen → id < c.nextCall

theorem Step.begun (h : Step c a c') (hb : Begun seen c) : Begun (seen ++ [a]) c' := by
  intro id event hm
  rcases mem_append.mp hm with hm | hm
  · have hlt := hb id event hm
    cases h
    case begin | cleanupFailed => exact Nat.lt_succ_of_lt hlt
    all_goals exact hlt
  · cases mem_singleton.mp hm
    cases h
    exact Nat.lt_succ_self _

theorem Step.kill (h : Step c (.cancel session) c') (hk : ∀ id, old id → id < c.nextCall) :
    Dead old session c' := by
  cases h
  case cancel =>
    obtain ⟨⟨hev, -⟩, hcan, -⟩ := cancelSession_spec c.inner session
    refine ⟨hk, fun e he hes => ?_, .inl ?_⟩
    · rw [hev] at he
      exact absurd hes (by simpa using (mem_filter.mp he).2)
    · rw [hcan]
      exact if_pos rfl

-- What a call that began before a cancellation pushes is not drained after it, when no such call is
-- under way at any time at which the session is resumed.
theorem cancelled_output_is_dead {c₁ c₂ c₃ : Config π} {l₁ l₂ : List (Label π)}
    (h₁ : Run .initial l₁ c₁) (hc : Step c₁ (.cancel session) c₂) (h₂ : Run c₂ l₂ c₃)
    (hr : ∀ calls, .resume session calls ∈ l₂ → ∀ id event, .begin id event ∈ l₁ → id ∉ calls) :
    ∀ id event, .begin id event ∈ l₁ → ∀ entries, .drained entries ∈ l₂ →
      ∀ e ∈ entries, e.sessionId = session → e.call ≠ id := by
  have hb : Begun ([] ++ l₁) c₁ :=
    h₁.relation (G := fun _ => True) (fun _ h hb => h.begun hb) (fun _ _ => trivial)
      (nofun)
  have ho : OneSession c₁ := h₁.invariant Step.one nofun
  have hd : Dead (fun id => ∃ event, .begin id event ∈ l₁) session c₂ :=
    hc.kill (fun id hold => hold.elim fun event hm => hb id event hm)
  have hlabel := h₂.label
    (G := fun a => ∀ calls, a = .resume session calls → ∀ id ∈ calls, ¬∃ event, .begin id event ∈ l₁)
    (Q := fun a => ∀ entries, a = .drained entries → ∀ e ∈ entries, e.sessionId = session →
      ¬∃ event, .begin e.call event ∈ l₁)
    (P := fun c => OneSession c ∧ Dead _ session c)
    (fun hg h hd => ⟨⟨h.one hd.1, h.dead hg hd.1 hd.2⟩,
      fun entries ha => by subst ha; exact h.drained_dead hd.2⟩)
    (fun a ha calls hcalls id hid hold => by
      subst hcalls
      obtain ⟨event, hm⟩ := hold
      exact hr calls ha id event hm hid) ⟨hc.one ho, hd⟩
  rintro id event hm entries hdr e he hes rfl
  exact hlabel _ hdr entries rfl e he hes ⟨event, hm⟩

namespace Sample

-- The greeting is under way while its session is cancelled and comes back.
def underway : Config Unit :=
  ⟨{ Inner.new with producerActive := true }, 1, [], some ⟨0, ['a'], [greeting]⟩⟩

theorem run_underway : Run .initial [.begin 0 greeting, .acquired greeting] underway :=
  .cons (.begin rfl) (.cons (@Step.acquire _ _ [] ⟨0, greeting⟩ [] rfl rfl rfl) .nil)

-- The call notices the cancellation, and another one greets after the session has come back.
theorem run_again : ∃ c₂ c₃, Step underway (.cancel ['a']) c₂ ∧
    Run c₂ [.aborted, .released, .resume ['a'] [], .begin 1 greeting, .acquired greeting, .pushed,
      .drained [⟨1, greeting⟩]] c₃ :=
  ⟨_, _, .cancel, .cons (@Step.abort _ _ 0 ['a'] greeting [] rfl rfl)
    (.cons (@Step.release _ _ 0 ['a'] rfl) (.cons .resume (.cons (.begin rfl)
      (.cons (@Step.acquire _ _ [] ⟨1, greeting⟩ [] rfl rfl rfl)
        (.cons (@Step.push _ _ 1 ['a'] greeting [] _ rfl rfl)
          (.cons (@Step.drain _ _ 1 none) .nil))))))⟩

end Sample

-- A call that waits between the cancellation and the resumption pushes its old output.
theorem cancelled_output_comes_back :
    Run .initial [.begin 0 Sample.greeting, .acquired Sample.greeting] Sample.underway ∧
      ∃ c₂ c₃, Step Sample.underway (.cancel ['a']) c₂ ∧
        Run c₂ [.resume ['a'] [0], .pushed, .drained [⟨0, Sample.greeting⟩]] c₃ :=
  ⟨Sample.run_underway, _, _, .cancel, .cons .resume
    (.cons (@Step.push _ _ 0 ['a'] Sample.greeting [] _ rfl rfl) (.cons (@Step.drain _ _ 1 none) .nil))⟩

theorem cancelled_output_is_dead_greeted :
    ∃ e : Entry Unit, e.sessionId = ['a'] ∧ e.event = Sample.greeting ∧ e.call ≠ 0 := by
  obtain ⟨c₂, c₃, hc, h₂⟩ := Sample.run_again
  refine ⟨⟨1, Sample.greeting⟩, rfl, rfl, ?_⟩
  exact cancelled_output_is_dead Sample.run_underway hc h₂ (by simp) 0 Sample.greeting (by simp)
    [⟨1, Sample.greeting⟩] (by simp) _ (.head _) rfl

end Cancel

end NyaTerm.Session

import NyaTerm.Session.EventQueue

namespace NyaTerm.Session

variable {inner : Inner π} {event : SessionEvent π}
  {c : Config π}

section Bytes

theorem outputBytes_append (xs ys : List (Entry π)) :
    outputBytes (xs ++ ys) = outputBytes xs + outputBytes ys := by
  induction xs
  case nil => simp [outputBytes]
  case cons x xs ih => rw [List.cons_append, outputBytes, outputBytes, ih, Nat.add_assoc]

theorem outputBytes_middle (before : List (Entry π)) (entry : Entry π) (after : List (Entry π)) :
    outputBytes (before ++ entry :: after) =
      entry.event.outputBytes + outputBytes (before ++ after) := by
  rw [outputBytes_append, outputBytes, outputBytes_append]
  omega

theorem outputBytes_filter (session : SessionId) (entries : List (Entry π)) :
    outputBytes entries = outputBytes (entries.filter (·.sessionId = session)) +
      outputBytes (entries.filter (·.sessionId ≠ session)) := by
  induction entries
  case nil => rfl
  case cons entry entries ih =>
    by_cases h : entry.sessionId = session
    · simp only [List.filter_cons, h, decide_true, if_true, ne_eq, not_true_eq_false, decide_false,
        Bool.false_eq_true, if_false, outputBytes] at ih ⊢
      omega
    · simp only [List.filter_cons, h, decide_false, Bool.false_eq_true, if_false, ne_eq,
        not_false_eq_true, decide_true, if_true, outputBytes] at ih ⊢
      omega

end Bytes

section Push

-- What a push that succeeds does to the queue.
structure Appends (inner : Inner π) (entry : Entry π) (inner' : Inner π) : Prop where
  events : inner'.events = inner.events ++ [entry]
  closed : inner'.closed = inner.closed
  cancelled : inner'.cancelledSessions = inner.cancelledSessions
  active : inner'.producerActive = inner.producerActive
  bytes : inner'.queuedOutputBytes = inner.queuedOutputBytes + entry.event.outputBytes
  limit : inner.queuedOutputBytes ≤ outputLimit → inner'.queuedOutputBytes ≤ outputLimit
  pressure : inner'.outputBackpressured →
    outputLimit ≤ inner'.queuedOutputBytes ∨ inner.outputBackpressured

theorem push_pushed (h : inner.push call event = .pushed inner') :
    inner.accepts event.sessionId ∧ Appends inner ⟨call, event⟩ inner' := by
  cases event
  case output session data =>
    rw [Inner.push, Inner.pushOutputChunk] at h
    split at h
    case isTrue => cases h
    case isFalse ha =>
      split at h
      case isFalse => cases h
      case isTrue hf =>
        cases h
        refine ⟨by simpa [SessionEvent.sessionId] using ha, rfl, rfl, rfl, rfl, rfl,
          fun _ => hf.2, fun hp => .inl ?_⟩
        simpa using hp
  all_goals
    simp only [Inner.push] at h
    split at h
    case isTrue => cases h
    case isFalse ha =>
      cases h
      exact ⟨by simpa using ha, rfl, rfl, rfl, rfl, rfl, id, .inr⟩

theorem push_waits (h : inner.push call event = .waits inner') :
    inner' = { inner with outputBackpressured := true } ∧
      (inner.outputBackpressured ∨ outputLimit < inner.queuedOutputBytes + event.outputBytes) := by
  cases event
  case output session data =>
    rw [Inner.push, Inner.pushOutputChunk] at h
    split at h
    case isTrue => cases h
    split at h
    case isTrue => cases h
    case isFalse hf =>
      cases h
      refine ⟨rfl, ?_⟩
      by_cases hb : inner.outputBackpressured
      · exact .inl hb
      · refine .inr (Nat.lt_of_not_le fun hle => hf ⟨by simpa using hb, hle⟩)
  all_goals
    simp only [Inner.push] at h
    split at h
    case isTrue | isFalse => cases h

theorem push_refused (h : inner.push call event = .refused) :
    inner.accepts event.sessionId = false := by
  cases event
  case output session data =>
    rw [Inner.push, Inner.pushOutputChunk] at h
    split at h
    case isTrue ha => simpa [SessionEvent.sessionId] using ha
    split at h
    case isTrue | isFalse => cases h
  all_goals
    simp only [Inner.push] at h
    split at h
    case isTrue ha => simpa using ha
    case isFalse => cases h

end Push

section Drain

variable {belongs : Entry π → Bool}

theorem splitFirst_eq_some (h : splitFirst belongs entries = some (before, entry, after)) :
    entries = before ++ entry :: after ∧ (∀ e ∈ before, belongs e = false) ∧ belongs entry := by
  induction entries generalizing before
  case nil => cases h
  case cons e entries ih =>
    rw [splitFirst] at h
    split at h
    case isTrue hb =>
      cases h
      exact ⟨rfl, nofun, hb⟩
    case isFalse hb =>
      rw [Option.map_eq_some_iff] at h
      obtain ⟨⟨before, entry, after⟩, hs, h⟩ := h
      cases h
      obtain ⟨rfl, hbefore, hentry⟩ := ih hs
      refine ⟨rfl, fun e he => ?_, hentry⟩
      rcases List.mem_cons.mp he with rfl | he
      · simpa using hb
      · exact hbefore e he

theorem splitFirst_isSome (h : splitFirst (fun _ => true) entries = none) : entries = [] := by
  cases entries
  case nil => rfl
  case cons => cases h

theorem takeEvent_part {drained : Nat} (h : takeEvent budget drained event = .part chunk rest) :
    ∃ session first last, event = .output session (first ++ last) ∧
      chunk = .output session first ∧ rest = .output session last := by
  unfold takeEvent at h
  split at h
  case h_1 max session data =>
    dsimp only at h
    split at h
    case isTrue => cases h
    split at h
    case isTrue =>
      cases h
      exact ⟨session, _, _, by rw [List.take_append_drop], rfl, rfl⟩
    case isFalse => cases h
  case h_2 => cases h

-- What holds of a drain that takes nothing, and of one more event taken, holds of every drain.
theorem drainLoop_rule {R : List (Entry π) → Inner π → Inner π → Prop}
    (hnil : ∀ inner, R [] inner inner)
    (hpart : ∀ {inner before call session first last after later final},
      inner.events = before ++ ⟨call, .output session (first ++ last)⟩ :: after →
      (∀ e ∈ before, belongs e = false) → belongs ⟨call, .output session (first ++ last)⟩ →
      R later { inner with
        events := before ++ ⟨call, .output session last⟩ :: after
        queuedOutputBytes := inner.queuedOutputBytes - first.length } final →
      R (⟨call, .output session first⟩ :: later) inner final)
    (hwhole : ∀ {inner before entry after later final}, inner.events = before ++ entry :: after →
      (∀ e ∈ before, belongs e = false) → belongs entry →
      R later { inner with
        events := before ++ after
        queuedOutputBytes := inner.queuedOutputBytes - entry.event.outputBytes } final →
      R (entry :: later) inner final)
    (n : Nat) (stats : Stats) (inner : Inner π) :
    R (drainLoop belongs budget n stats inner).1 inner (drainLoop belongs budget n stats inner).2.2 := by
  induction n generalizing stats inner
  case zero => exact hnil inner
  case succ n ih =>
    unfold drainLoop
    split
    case h_1 => exact hnil inner
    case h_2 before entry after hs =>
      obtain ⟨he, hbefore, hentry⟩ := splitFirst_eq_some hs
      split
      case h_1 => exact hnil inner
      case h_2 chunk rest ht =>
        obtain ⟨call, event⟩ := entry
        obtain ⟨session, first, last, rfl, rfl, rfl⟩ := takeEvent_part ht
        exact hpart he hbefore hentry (ih _ _)
      case h_3 => exact hwhole he hbefore hentry (ih _ _)

-- A drain changes nothing but the events and the count of bytes.
structure SameControl (inner final : Inner π) : Prop where
  closed : final.closed = inner.closed
  cancelled : final.cancelledSessions = inner.cancelledSessions
  active : final.producerActive = inner.producerActive
  pressure : final.outputBackpressured = inner.outputBackpressured

theorem drainLoop_control (n : Nat) (stats : Stats) (inner : Inner π) :
    SameControl inner (drainLoop belongs budget n stats inner).2.2 :=
  drainLoop_rule (R := fun _ inner final => SameControl inner final)
    (fun _ => ⟨rfl, rfl, rfl, rfl⟩)
    (fun _ _ _ h => { h with })
    (fun _ _ _ h => { h with }) n stats inner

-- No subtraction of a drain stops at zero: what is counted before is what was taken and what is left.
theorem drainLoop_bytes (n : Nat) (stats : Stats) (inner : Inner π)
    (h : inner.queuedOutputBytes = outputBytes inner.events) :
    (drainLoop belongs budget n stats inner).2.2.queuedOutputBytes =
        outputBytes (drainLoop belongs budget n stats inner).2.2.events ∧
      inner.queuedOutputBytes = outputBytes (drainLoop belongs budget n stats inner).1 +
        (drainLoop belongs budget n stats inner).2.2.queuedOutputBytes := by
  refine drainLoop_rule (R := fun entries inner final =>
    inner.queuedOutputBytes = outputBytes inner.events →
      final.queuedOutputBytes = outputBytes final.events ∧
        inner.queuedOutputBytes = outputBytes entries + final.queuedOutputBytes)
    (fun inner h => ⟨h, by simp [outputBytes]⟩) ?_ ?_ n stats inner h
  · intro inner before call session first last after later final he _ _ ih h
    rw [he, outputBytes_middle] at h
    simp only [SessionEvent.outputBytes, List.length_append] at h
    obtain ⟨hf, hl⟩ := ih (by
      rw [outputBytes_middle]
      simp only [SessionEvent.outputBytes]
      omega)
    refine ⟨hf, ?_⟩
    rw [outputBytes]
    simp only [SessionEvent.outputBytes] at hl ⊢
    omega
  · intro inner before entry after later final he _ _ ih h
    rw [he, outputBytes_middle] at h
    obtain ⟨hf, hl⟩ := ih (by dsimp only; omega)
    refine ⟨hf, ?_⟩
    rw [outputBytes]
    dsimp only at hl
    omega

theorem drainLoop_all (n : Nat) (stats : Stats) (inner : Inner π) (h : inner.events.length ≤ n) :
    (drainLoop (fun _ => true) none n stats inner).2.2.events = [] := by
  induction n generalizing stats inner
  case zero => exact List.eq_nil_of_length_eq_zero (Nat.le_zero.mp h)
  case succ n ih =>
    unfold drainLoop
    split
    case h_1 hs => exact splitFirst_isSome hs
    case h_2 before entry after hs =>
      have he := (splitFirst_eq_some hs).1
      refine ih _ _ ?_
      rw [he, List.length_append, List.length_cons] at h
      rw [List.length_append]
      omega

end Drain

section Accounting

-- The count of bytes is that of the queue, and the flag is up only above the low watermark.
structure Accounted (inner : Inner π) : Prop where
  bytes : inner.queuedOutputBytes = outputBytes inner.events
  limit : inner.queuedOutputBytes ≤ outputLimit
  pressure : inner.outputBackpressured → outputLowWatermark < inner.queuedOutputBytes

theorem Accounted.resume (hb : inner.queuedOutputBytes = outputBytes inner.events)
    (hl : inner.queuedOutputBytes ≤ outputLimit) :
    Accounted inner.resumeOutputIfBelowLowWatermark := by
  unfold Inner.resumeOutputIfBelowLowWatermark
  split
  case isTrue => exact ⟨hb, hl, nofun⟩
  case isFalse h => exact ⟨hb, hl, fun hp => Nat.lt_of_not_le fun hle => h ⟨hp, hle⟩⟩

section

variable (h : Accounted inner)
include h

theorem Accounted.removed (session : SessionId) :
    outputBytes (inner.events.filter (·.sessionId = session)) ≤ inner.queuedOutputBytes := by
  have := outputBytes_filter session inner.events
  have := h.bytes
  omega

theorem Accounted.cancelSession (session : SessionId) :
    Accounted (inner.cancelSession session) := by
  have hf := outputBytes_filter session inner.events
  have hb := h.bytes
  have hl := h.limit
  refine Accounted.resume ?_ ?_
  · dsimp only
    omega
  · dsimp only
    omega

theorem Accounted.drainLoop {belongs : Entry π → Bool} {budget : Option Nat}
    (n : Nat) (stats : Stats) :
    Accounted (drainLoop belongs budget n stats inner).2.2.resumeOutputIfBelowLowWatermark := by
  obtain ⟨hb, hs⟩ := @drainLoop_bytes _ belongs budget n stats inner h.bytes
  have hl := h.limit
  exact Accounted.resume hb (by omega)

theorem Accounted.appends (ha : Appends inner entry inner') : Accounted inner' := by
  have hb := h.bytes
  refine ⟨?_, ha.limit h.limit, fun hp => ?_⟩
  · rw [ha.bytes, ha.events, outputBytes_append, outputBytes, outputBytes]
    omega
  · have hw : outputLowWatermark < outputLimit := by decide
    rcases ha.pressure hp with hp | hp
    · omega
    · have := h.pressure hp
      rw [ha.bytes]
      omega

-- An event that does not fit is a small part of the limit, so that the queue is more than half full.
theorem Accounted.waits (he : event.outputBytes ≤ outputEventLimit)
    (hw : inner.outputBackpressured ∨ outputLimit < inner.queuedOutputBytes + event.outputBytes) :
    Accounted { inner with outputBackpressured := true } := by
  refine ⟨h.bytes, h.limit, fun _ => ?_⟩
  rcases hw with hp | hf
  · exact h.pressure hp
  · simp only [outputLowWatermark, outputLimit, outputEventLimit] at *
    omega

theorem Accounted.cleanup :
    Accounted (inner.pushCleanupFailure call session consumer operation) := by
  unfold Inner.pushCleanupFailure
  split
  case isTrue => exact h
  split
  case isTrue => exact h
  refine { h with bytes := ?_ }
  rw [outputBytes_append, h.bytes]
  rfl

end

theorem pieces_small (h : piece ∈ pieces event) : piece.outputBytes ≤ outputEventLimit := by
  cases event
  case output session data =>
    obtain ⟨chunk, hc, rfl⟩ := List.mem_map.mp h
    exact Bytes.length_chunks hc
  all_goals
    cases List.mem_singleton.mp h
    exact Nat.zero_le _

structure Sound (c : Config π) : Prop where
  accounted : Accounted c.inner
  small : ∀ e ∈ c.todo, e.outputBytes ≤ outputEventLimit

theorem Sound.initial : Sound (.initial : Config π) :=
  ⟨⟨rfl, Nat.zero_le _, nofun⟩, nofun⟩

theorem todo_of_turn {id : Nat} (h : c.turn = some ⟨id, session, todo⟩) : c.todo = todo := by
  rw [Config.todo, h]
  rfl

theorem Step.sound (h : Step c a c') (hs : Sound c) : Sound c' := by
  have ha := hs.accounted
  cases h
  case acquire => exact ⟨{ ha with }, fun e he => pieces_small he⟩
  case push ht hp =>
    have hsmall := hs.small
    rw [todo_of_turn ht] at hsmall
    exact ⟨ha.appends (push_pushed hp).2, fun e he => hsmall e (.tail _ he)⟩
  case wait ht hp =>
    obtain ⟨rfl, hw⟩ := push_waits hp
    have hsmall := hs.small
    rw [todo_of_turn ht] at hsmall
    exact ⟨ha.waits (hsmall _ (.head _)) hw, hs.small⟩
  case abort => exact ⟨ha, nofun⟩
  case release | drop => exact ⟨{ ha with }, nofun⟩
  case cleanupFailed => exact ⟨ha.cleanup, hs.small⟩
  case cancel session => exact ⟨ha.cancelSession session, hs.small⟩
  case resume session =>
    refine ⟨?_, hs.small⟩
    unfold Inner.resumeSession
    split
    case isTrue => exact ha
    case isFalse => exact { ha with }
  case assign session consumer =>
    refine ⟨?_, hs.small⟩
    unfold Inner.assignConsumer
    split
    case isTrue => exact ha
    case isFalse => exact { ha with }
  case clear session consumer =>
    refine ⟨?_, hs.small⟩
    unfold Inner.clearConsumer
    split
    case isTrue => exact { ha with }
    case isFalse => exact ha
  case close => exact ⟨{ ha with }, hs.small⟩
  case drain n budget | drainForConsumer consumer n budget => exact ⟨ha.drainLoop n .zero, hs.small⟩
  all_goals exact ⟨ha, hs.small⟩

-- In every state that is reached, the bytes are counted as they are queued and within the limit, no
-- subtraction of a cancellation or a drain stops at zero, and the flag is up only above the low
-- watermark. A drain of all events takes it down.
theorem accounting {labels : List (Label π)} (h : Run .initial labels c) :
    (c.inner.queuedOutputBytes = outputBytes c.inner.events ∧
      c.inner.queuedOutputBytes ≤ outputLimit) ∧
    (∀ session, outputBytes (c.inner.events.filter (·.sessionId = session)) ≤
      c.inner.queuedOutputBytes) ∧
    (∀ n budget, c.inner.queuedOutputBytes = outputBytes (c.inner.drain n budget).1 +
      (c.inner.drain n budget).2.2.queuedOutputBytes) ∧
    (∀ consumer n budget, c.inner.queuedOutputBytes =
      outputBytes (c.inner.drainForConsumer consumer n budget).1 +
        (c.inner.drainForConsumer consumer n budget).2.2.queuedOutputBytes) ∧
    (c.inner.outputBackpressured → outputLowWatermark < c.inner.queuedOutputBytes) ∧
    ∀ n, c.inner.events.length ≤ n → (c.inner.drain n none).2.2.events = [] ∧
      (c.inner.drain n none).2.2.resumeOutputIfBelowLowWatermark.outputBackpressured = false := by
  have ha := (h.invariant (P := Sound) Step.sound Sound.initial).accounted
  refine ⟨⟨ha.bytes, ha.limit⟩, ha.removed, fun n budget => (drainLoop_bytes _ _ _ ha.bytes).2,
    fun consumer n budget => (drainLoop_bytes _ _ _ ha.bytes).2, ha.pressure, fun n hn => ?_⟩
  have hall := drainLoop_all n .zero c.inner hn
  refine ⟨hall, ?_⟩
  have hd := @Accounted.drainLoop _ _ ha (fun _ => true) none n .zero
  by_contra hp
  have hlow := hd.pressure (Bool.eq_true_of_not_eq_false hp)
  rw [hd.bytes] at hlow
  unfold Inner.resumeOutputIfBelowLowWatermark at hlow
  split at hlow
  case isTrue | isFalse => rw [hall] at hlow; cases hlow

namespace Sample

def greeting : SessionEvent Unit :=
  .output ['a'] [104, 105]

-- One session with two bytes of output in the queue.
def greeted : Config Unit :=
  ⟨⟨[⟨0, greeting⟩], 2, 2, false, true, false, fun _ => false, fun _ => none⟩, 1, [],
    some ⟨0, ['a'], []⟩⟩

theorem run_greeted : Run .initial [.begin 0 greeting, .acquired greeting, .pushed] greeted :=
  .cons (.begin rfl) (.cons (@Step.acquire _ _ [] ⟨0, greeting⟩ [] rfl rfl rfl)
    (.cons (@Step.push _ _ 0 ['a'] greeting [] _ rfl rfl) .nil))

end Sample

theorem accounting_greeted :
    Sample.greeted.inner.queuedOutputBytes = 2 ∧ outputBytes Sample.greeted.inner.events = 2 ∧
      outputBytes (Sample.greeted.inner.drain 1 (some 1)).1 +
        (Sample.greeted.inner.drain 1 (some 1)).2.2.queuedOutputBytes = 2 := by
  obtain ⟨⟨hb, -⟩, -, hd, -⟩ := accounting Sample.run_greeted
  exact ⟨rfl, hb.symm, (hd 1 (some 1)).symm⟩

end Accounting

end NyaTerm.Session

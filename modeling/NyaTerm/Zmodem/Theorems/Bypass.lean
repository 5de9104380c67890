import NyaTerm.Zmodem.Theorems.Detect

namespace NyaTerm.Zmodem.Detect

theorem zdle_mem_of_headerAt (h : headerAt data = some direction) : zdle ∈ data := by
  rcases data with - | ⟨a, - | ⟨b, - | ⟨c, - | ⟨kind, remaining⟩⟩⟩⟩
  case cons.cons.cons.cons =>
    rw [headerAt] at h
    split at h
    case isTrue hpad => simp [hpad.2.2.1]
    case isFalse => cases h
  all_goals cases h

theorem detect_of_not_mem (h : zdle ∉ data) : detectZmodemStart data = none := by
  apply detect_eq_none
  intro m _
  cases hfound : headerAt (data.drop m)
  case none => rfl
  case some direction => exact absurd (List.mem_of_mem_drop (zdle_mem_of_headerAt hfound)) h

namespace Detector

variable {detector : Detector}

-- The time of an update is kept with pending bytes only.
def Settled (detector : Detector) : Prop :=
  detector.pending = [] → detector.pendingUpdatedAt = none

theorem Settled.react (h : detector.Settled) (event : Event) : (detector.react event).2.Settled := by
  cases event
  case chunk data now =>
    cases hstart : detectZmodemStart (detector.pending ++ data)
    case none =>
      intro hpending
      simp only [Detector.react, feed, hstart] at hpending ⊢
      rw [if_pos hpending]
    case some found =>
      rw [Detector.react, feed_of_some hstart]
      exact fun _ => rfl
  case flush now =>
    rw [Detector.react, flushPendingIfIdle]
    split
    case h_1 => exact h
    dsimp only
    generalize (if zdle ∈ detector.pending then headerIdleTimeout else asteriskIdleTimeout) = timeout
    split
    case isTrue => exact h
    case isFalse => exact fun _ => rfl

theorem Settled.run (h : detector.Settled) (events : List Event) : (detector.run events).2.Settled := by
  induction events generalizing detector
  case nil => exact h
  case cons event events ih => exact ih (h.react event)

theorem Settled.new : new.Settled :=
  fun _ => rfl

-- A chunk that the detector would pass on as a whole, without a change of the start of the line.
structure Neutral (detector : Detector) (data : Bytes) : Prop where
  released : retainedPrefixStart data detector.pendingStartsAtLineStart = data.length
  line : data ≠ [] → endsAtLineStart data = detector.pendingStartsAtLineStart

section

variable (h : detector.bypasses data = true)
include h

theorem pending_of_bypasses : detector.pending = [] := by
  simp only [bypasses, isIdle, decide_eq_true_eq] at h
  exact h.1

theorem detect_of_bypasses : detectZmodemStart data = none := by
  apply detect_of_not_mem
  intro hmem
  simp [bypasses, outputMayContainTrigger, hmem] at h

theorem feed_of_bypasses :
    detector.feed data now =
      (.noMatch (data.take (retainedPrefixStart data detector.pendingStartsAtLineStart)),
        { pending := data.drop (retainedPrefixStart data detector.pendingStartsAtLineStart)
          pendingUpdatedAt :=
            if data.drop (retainedPrefixStart data detector.pendingStartsAtLineStart) = [] then none
            else if data = [] then detector.pendingUpdatedAt else some now
          pendingStartsAtLineStart :=
            if retainedPrefixStart data detector.pendingStartsAtLineStart = 0 then
              detector.pendingStartsAtLineStart
            else endsAtLineStart
              (data.take (retainedPrefixStart data detector.pendingStartsAtLineStart)) }) := by
  rw [feed, pending_of_bypasses h, List.nil_append, detect_of_bypasses h]

end

section

variable (hsettled : detector.Settled)
include hsettled

theorem feed_of_neutral (h : detector.bypasses data = true)
    (hneutral : detector.Neutral data) : detector.feed data now = (.noMatch data, detector) := by
  have hpending := pending_of_bypasses h
  have hline : (if data.length = 0 then detector.pendingStartsAtLineStart else endsAtLineStart data) =
      detector.pendingStartsAtLineStart := by
    split
    case isTrue => rfl
    case isFalse hne => exact hneutral.line fun hnil => hne (congrArg List.length hnil)
  rw [feed_of_bypasses h, hneutral.released, List.take_length, List.drop_length, hline, if_pos rfl,
    ← hsettled hpending, ← hpending]

-- Every chunk of the run that passes around is neutral.
def NeutralAlong (detector : Detector) : List Event → Prop
  | [] => True
  | .chunk data now :: events =>
    (detector.bypasses data = true → detector.Neutral data) ∧
      (detector.reactOrBypass (.chunk data now)).2.NeutralAlong events
  | .flush now :: events => (detector.reactOrBypass (.flush now)).2.NeutralAlong events

theorem reactOrBypass_eq
    (h : detector.NeutralAlong (event :: events)) :
    detector.reactOrBypass event = detector.react event := by
  cases event
  case chunk data now =>
    rw [reactOrBypass, react]
    split
    case isTrue hbypass => rw [feed_of_neutral hsettled hbypass (h.1 hbypass)]
    case isFalse => rfl
  case flush now => rfl

omit hsettled in
theorem NeutralAlong.tail (h : detector.NeutralAlong (event :: events)) :
    (detector.reactOrBypass event).2.NeutralAlong events := by
  cases event
  case chunk data now => exact h.2
  case flush now => exact h

theorem runBypassing_eq (h : detector.NeutralAlong events) :
    detector.runBypassing events = detector.run events := by
  induction events generalizing detector
  case nil => rfl
  case cons event events ih =>
    have hstep := reactOrBypass_eq hsettled h
    have hlater := h.tail
    rw [hstep] at hlater
    rw [runBypassing, run, hstep, ih (hsettled.react event) hlater]

-- A header in two chunks, which is found at the start of a line only.
def probe : List Event :=
  [.chunk [zpad] 0, .chunk [zpad, zdle, zhex, 48, 48] 0]

omit hsettled in
theorem transfers_probe (line : Bool) :
    (observe ((⟨[], none, line⟩ : Detector).run probe).1).2 =
      if line then [(.download, [zpad, zpad, zdle, zhex, 48, 48])] else [] := by
  cases line <;> rfl

omit hsettled in
theorem transfers_noMatch (data : Bytes) (results : List Result) :
    (observe (.noMatch data :: results)).2 = (observe results).2 :=
  rfl

-- Nothing later tells whether a chunk has been fed.
def Unobservable (detector : Detector) (data : Bytes) (now : Nat) : Prop :=
  ∀ later, observe (.noMatch data :: (detector.run later).1) =
    observe (detector.run (.chunk data now :: later)).1

theorem Neutral.unobservable (h : detector.bypasses data = true)
    (hneutral : detector.Neutral data) : detector.Unobservable data now := by
  intro later
  rw [run, react, feed_of_neutral hsettled h hneutral]

theorem eq_of_idle (h : detector.pending = []) :
    detector = ⟨[], none, detector.pendingStartsAtLineStart⟩ := by
  rw [← h, ← hsettled h]

theorem Unobservable.neutral (h : detector.bypasses data = true)
    (hsame : detector.Unobservable data now) : detector.Neutral data := by
  have hreleased : retainedPrefixStart data detector.pendingStartsAtLineStart = data.length := by
    have hvisible := congrArg (List.length ∘ Prod.fst) (hsame [])
    have hle := retained_le data detector.pendingStartsAtLineStart
    simp only [run, react, feed_of_bypasses h, observe, Function.comp_apply, List.flatMap_cons,
      List.flatMap_nil, Result.visible, List.append_nil, List.length_take] at hvisible
    omega
  refine ⟨hreleased, fun hne => ?_⟩
  -- The detectors differ in the start of the line, which the probe shows.
  have hfed : detector.feed data now = (.noMatch data, ⟨[], none, endsAtLineStart data⟩) := by
    rw [feed_of_bypasses h, hreleased, List.take_length, List.drop_length, if_pos rfl,
      if_neg (fun hzero => hne (List.eq_nil_of_length_eq_zero hzero))]
  have hprobe := congrArg Prod.snd (hsame probe)
  rw [run, react, hfed, transfers_noMatch, transfers_noMatch, transfers_probe,
    eq_of_idle hsettled (pending_of_bypasses h), transfers_probe] at hprobe
  cases hline : detector.pendingStartsAtLineStart <;> cases hends : endsAtLineStart data <;>
    simp_all

end

-- Passing chunks around the detector is unobservable in every run in which these are neutral, and for
-- no other chunk.
theorem bypass_is_unobservable (events : List Event) :
    (new.NeutralAlong events → new.runBypassing events = new.run events) ∧
    ∀ data now, (new.run events).2.bypasses data = true →
      ((new.run events).2.Unobservable data now ↔ (new.run events).2.Neutral data) := by
  constructor
  · exact runBypassing_eq Settled.new
  · intro data now h
    exact ⟨fun hsame => hsame.neutral (Settled.new.run events) h, fun hneutral =>
      hneutral.unobservable (Settled.new.run events) h⟩

-- A line passes around a new detector.
theorem bypass_is_unobservable_of_line :
    new.runBypassing [.chunk [97, 10] 0] = new.run [.chunk [97, 10] 0] ∧
    ((new.run []).2.Unobservable [97, 10] 0 ↔ (new.run []).2.Neutral [97, 10]) :=
  ⟨(bypass_is_unobservable [.chunk [97, 10] 0]).1 ⟨fun _ => ⟨by decide, by decide⟩, trivial⟩,
    (bypass_is_unobservable []).2 [97, 10] 0 (by decide)⟩

-- A header behind text in the same line is found only if the text passes around, and the banner of a
-- receiver is removed only if it does not.
theorem bypass_is_observable :
    (observe (new.runBypassing (.chunk [97, 98, 99] 0 :: probe)).1).2 ≠
      (observe (new.run (.chunk [97, 98, 99] 0 :: probe)).1).2 ∧
    (observe (new.runBypassing [.chunk (receivePrompt ++ [13, 10]) 0,
      .chunk [42, 42, 24, 66, 48, 49] 0]).1).1 ≠
      (observe (new.run [.chunk (receivePrompt ++ [13, 10]) 0,
        .chunk [42, 42, 24, 66, 48, 49] 0]).1).1 := by
  decide

end Detector

end NyaTerm.Zmodem.Detect

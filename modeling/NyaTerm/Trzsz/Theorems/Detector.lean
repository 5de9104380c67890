import NyaTerm.Trzsz.Detector

open List

namespace NyaTerm.Trzsz

open Parsed

section Parsing

theorem Parsed.bind_eq_ok {α β : Type} {x : Parsed α} {f : α → Bytes → Parsed β} {value : β}
    {rest : Bytes} :
    x.bind f = .ok value rest ↔ ∃ a data, x = .ok a data ∧ f a data = .ok value rest := by
  cases x <;> simp [bind]

theorem consumeByte_rest {expected : UInt8} {value : Unit}
    (h : consumeByte expected data = .ok value rest) : rest <:+ data := by
  cases data
  case nil => cases h
  case cons b data =>
    rw [consumeByte] at h
    split at h
    case isTrue =>
      cases h
      exact suffix_cons b _
    case isFalse => cases h

theorem consumeDigits_rest
    (h : consumeDigits data = .ok value rest) : rest <:+ data := by
  rw [consumeDigits] at h
  split at h
  case isTrue =>
    cases h
    exact dropWhile_suffix _
  case isFalse => split at h <;> cases h

theorem mode_rest {value : TriggerMode}
    (h : mode data = .ok value rest) : rest <:+ data := by
  cases data
  case nil => cases h
  case cons b data =>
    rw [mode] at h
    repeat' split at h
    all_goals cases h
    all_goals exact suffix_cons b _

theorem optionalNumber_rest {value : Option Bytes}
    (h : optionalNumber data = .ok value rest) : rest <:+ data := by
  rcases data with _ | ⟨b, _ | ⟨c, data⟩⟩
  case nil =>
    cases h
    exact suffix_rfl
  case cons.nil =>
    rw [optionalNumber] at h
    split at h <;> cases h
    exact suffix_rfl
  case cons.cons =>
    rw [optionalNumber] at h
    split at h <;> cases h
    · exact (dropWhile_suffix _).trans (suffix_cons b _)
    · exact suffix_rfl

theorem version_rest (h : version data = .ok value rest) :
    rest <:+ data := by
  simp only [version, bind_eq_ok] at h
  obtain ⟨_, _, h₁, _, _, h₂, _, _, h₃, _, _, h₄, _, _, h₅, h₆⟩ := h
  cases h₆
  exact (consumeDigits_rest h₅).trans ((consumeByte_rest h₄).trans ((consumeDigits_rest h₃).trans
    ((consumeByte_rest h₂).trans (consumeDigits_rest h₁))))

theorem parseFields_rest {value : TriggerMode × Bytes × Option Bytes × Option Bytes}
    (h : parseFields data = .ok value rest) : rest <:+ data := by
  simp only [parseFields, bind_eq_ok] at h
  obtain ⟨_, _, h₁, _, _, h₂, _, _, h₃, _, _, h₄, _, _, h₅, h₆⟩ := h
  cases h₆
  exact (optionalNumber_rest h₅).trans ((optionalNumber_rest h₄).trans ((version_rest h₃).trans
    ((consumeByte_rest h₂).trans (mode_rest h₁))))

theorem parseTrigger_detected {length : Nat} (h : parseTrigger data = .detected trigger length) :
    trigger.raw = data.take length ∧ 0 < length ∧ length ≤ data.length := by
  rw [parseTrigger.eq_def] at h
  split at h
  case isTrue => split at h <;> cases h
  case isFalse hlong =>
    split at h
    case isTrue => cases h
    split at h
    case isTrue => cases h
    split at h
    case h_1 | h_2 => cases h
    case h_3 hf =>
      cases h
      have hl := (parseFields_rest hf).length_le
      have hm : marker.length = 17 := rfl
      rw [length_drop] at hl
      exact ⟨rfl, by omega, by omega⟩

end Parsing

variable {windows : Bool}

variable {seen : List (String × Nat)}

theorem search_some (h : search windows seen start skip data = some (trigger, first, stop)) :
    ∃ before after, data = before ++ trigger.raw ++ after ∧ first = start + before.length ∧
      stop = first + trigger.raw.length ∧ trigger.raw ≠ [] := by
  fun_induction search windows seen start skip data
  case case1 => cases h
  case case2 start skip b data ih | case3 start b data found length hp hrep ih =>
    obtain ⟨before, after, rfl, hf, hs⟩ := ih h
    exact ⟨b :: before, after, rfl, by simp; omega, hs⟩
  case case4 start b data found length hp hrep =>
    cases h
    split at hp
    case isTrue =>
      obtain ⟨hr, hpos, hle⟩ := parseTrigger_detected hp
      have hlen : trigger.raw.length = length := by
        rw [hr, length_take]
        omega
      refine ⟨[], (b :: data).drop length, ?_, by simp, by omega, ?_⟩
      · rw [hr, nil_append, take_append_drop]
      · exact length_pos_iff.mp (by omega)
    case isFalse => cases hp
  case case5 start b data hp ih =>
    obtain ⟨before, after, rfl, hf, hs⟩ := ih h
    exact ⟨b :: before, after, rfl, by simp; omega, hs⟩

theorem output_append (events events' : List OutputEvent) :
    output (events ++ events') = output events ++ output events' :=
  flatMap_append

theorem output_trigger (trigger : Trigger) (events : List OutputEvent) :
    output (.trigger trigger :: events) = trigger.raw ++ output events :=
  flatMap_cons

namespace Detector

-- An idle detector does not wait for anything.
def Settled (detector : Detector) : Prop :=
  detector.pending = [] → detector.updatedAt = none

theorem output_passthrough (bytes : Bytes) : output (passthrough bytes) = bytes := by
  rw [passthrough]
  split
  case isTrue h => rw [h]; rfl
  case isFalse => exact flatMap_singleton OutputEvent.bytes _

variable {d next : Detector}

theorem feedAt_noMatch (h : d.feedAt windows data now = (.noMatch bytes, next)) :
    bytes ++ next.pending = d.pending ++ data ∧ next.Settled := by
  rw [feedAt.eq_def] at h
  dsimp only at h
  split at h
  case h_1 => cases h
  cases h
  refine ⟨take_append_drop _ _, fun hk => ?_⟩
  exact if_pos hk

theorem feedAt_detected (h : d.feedAt windows data now = (.detected trigger bytes remaining, next)) :
    bytes ++ trigger.raw ++ remaining = d.pending ++ data ∧ trigger.raw ≠ [] ∧
      next.pending = [] ∧ next.Settled := by
  rw [feedAt.eq_def] at h
  dsimp only at h
  split at h
  case h_1 found first stop hs =>
    cases h
    obtain ⟨before, after, he, hf, hstop, hne⟩ := search_some hs
    refine ⟨?_, hne, rfl, fun _ => rfl⟩
    rw [he, hstop, hf, Nat.zero_add, ← length_append, drop_left, append_assoc before,
      take_left, append_assoc]
  case h_2 => cases h

theorem scanRounds_conserves (clock : Nat → Nat) (rounds : Nat) (d : Detector) (data : Bytes)
    (h : d.pending.length + data.length < rounds) :
    output (scanRounds windows clock rounds d data).1 ++
        (scanRounds windows clock rounds d data).2.pending = d.pending ++ data ∧
      (scanRounds windows clock rounds d data).2.Settled := by
  induction rounds generalizing d data
  case zero => omega
  case succ rounds ih =>
    rw [scanRounds.eq_def]
    dsimp only
    split
    case h_1 bytes next hf =>
      obtain ⟨hc, hs⟩ := feedAt_noMatch hf
      rw [output_passthrough]
      exact ⟨hc, hs⟩
    case h_2 trigger bytes remaining next hf =>
      obtain ⟨hc, hne, hp, hs⟩ := feedAt_detected hf
      have hlen := congrArg List.length hc
      have hpos := length_pos_iff.mpr hne
      simp only [length_append] at hlen
      split
      case isTrue hr =>
        refine ⟨?_, hs⟩
        rw [hp, ← hc, hr, output_append, output_passthrough, output_trigger]
        exact congrArg (bytes ++ · ++ []) (append_nil _)
      case isFalse =>
        obtain ⟨hl, hset⟩ := ih next remaining (by rw [hp, length_nil]; omega)
        rw [hp, nil_append] at hl
        refine ⟨?_, hset⟩
        rw [← hc, output_append, output_passthrough, output_trigger]
        simp only [append_assoc, hl]

theorem flushPendingIfIdle_conserves (d : Detector) (now : Nat) (h : d.Settled) :
    (d.flushPendingIfIdle now).1 ++ (d.flushPendingIfIdle now).2.pending =
        d.pending ∧
      (d.flushPendingIfIdle now).2.Settled := by
  rw [flushPendingIfIdle.eq_def]
  split
  case h_1 => exact ⟨rfl, h⟩
  case h_2 =>
    generalize (if d.pending = [colon] ∨ d.pending = [colon, colon] then 50 else 1000) =
      timeout
    dsimp only
    split
    case isTrue => exact ⟨rfl, h⟩
    case isFalse => exact ⟨append_nil _, fun _ => rfl⟩

theorem search_noMarker (h : ¬ marker <:+: data) :
    search windows seen start skip data = none := by
  fun_induction search windows seen start skip data
  case case1 => rfl
  case case2 ih | case3 ih => exact ih (fun hi => h (infix_cons hi))
  case case4 hp _ =>
    split at hp
    case isTrue hm => exact absurd hm.isInfix h
    case isFalse => cases hp
  case case5 ih => exact ih (fun hi => h (infix_cons hi))

theorem retainedStart_noTrigger (h : outputMayContainTrigger data = false) :
    retainedStart data = data.length := by
  rw [outputMayContainTrigger, decide_eq_false_iff_not, not_or, not_exists] at h
  obtain ⟨hmarker, hpart⟩ := h
  rw [retainedStart]
  rw [find?_eq_none.mpr]
  intro length hmem
  obtain ⟨before, hb, rfl⟩ := mem_map.mp hmem
  rw [mem_reverse, mem_range, Nat.lt_min] at hb
  have hinf : data.drop (data.length - (before + 1)) <:+: data := (drop_suffix _ _).isInfix
  have hlen : (data.drop (data.length - (before + 1))).length = before + 1 := by
    rw [length_drop]
    omega
  rw [decide_eq_true_eq, not_or, not_and]
  refine ⟨fun hp => ?_, fun hp => absurd (hp.isInfix.trans hinf) hmarker⟩
  have hle := hp.length_le
  rw [hlen] at hle
  rcases Nat.lt_or_ge (before + 1) marker.length with hlt | hge
  · exact hpart (before + 1) ⟨List.mem_range'_1.mpr (by omega), by omega, hp⟩
  · exact hmarker ((hp.eq_of_length (by omega)) ▸ hinf)

theorem scanTerminalOutput_noTrigger (clock : Nat → Nat)
    (hset : d.Settled) (hidle : d.isIdle = true)
    (h : outputMayContainTrigger data = false) :
    d.scanTerminalOutput windows clock data = (passthrough data, d) := by
  have hp : d.pending = [] := of_decide_eq_true hidle
  have hs : search windows d.seen 0 0 data = none := by
    apply search_noMarker
    intro hm
    rw [outputMayContainTrigger, decide_eq_false_iff_not, not_or] at h
    exact h.1 hm
  rw [scanTerminalOutput, scanRounds, feedAt.eq_def]
  dsimp only
  rw [hp, nil_append, hs]
  dsimp only
  rw [retainedStart_noTrigger h, take_length, drop_length, if_pos rfl, ← hset hp, ← hp]

theorem perform_conserves (operation : Operation) (h : d.Settled) :
    output (d.perform windows operation).1 ++ (d.perform windows operation).2.pending =
        d.pending ++ operation.input ∧
      (d.perform windows operation).2.Settled := by
  cases operation
  case scan clock data => exact scanRounds_conserves clock _ d data (Nat.lt_succ_self _)
  case flush now =>
    obtain ⟨hc, hs⟩ := flushPendingIfIdle_conserves d now h
    refine ⟨?_, hs⟩
    rw [perform, output_passthrough, hc]
    exact (append_nil _).symm

theorem run_conserves (operations : List Operation) (h : d.Settled) :
    output (d.run windows operations).1 ++ (d.run windows operations).2.pending =
        d.pending ++ operations.flatMap Operation.input ∧
      (d.run windows operations).2.Settled := by
  induction operations generalizing d
  case nil => exact ⟨(append_nil _).symm, h⟩
  case cons operation rest ih =>
    obtain ⟨hc, hs⟩ := @perform_conserves windows d operation h
    obtain ⟨hl, hset⟩ := ih hs
    refine ⟨?_, hset⟩
    rw [run]
    rw [output_append, append_assoc, hl, ← append_assoc, hc, flatMap_cons,
      append_assoc]

-- No byte of the output of a terminal is lost or repeated, however it arrives and whenever pending
-- bytes are given up, and what cannot hold a trigger passes an idle detector as it is.
theorem terminal_output_is_conserved (operations : List Operation) :
    let reached := new.run windows operations
    output reached.1 ++ reached.2.pending = operations.flatMap Operation.input ∧
      ∀ clock data, reached.2.isIdle = true → outputMayContainTrigger data = false →
        reached.2.scanTerminalOutput windows clock data = (passthrough data, reached.2) := by
  obtain ⟨hc, hs⟩ := @run_conserves windows new operations (fun _ => rfl)
  exact ⟨hc, fun clock data => scanTerminalOutput_noTrigger clock hs⟩

theorem terminal_output_is_conserved_listing :
    outputMayContainTrigger (ascii "ls") = false ∧
      new.scanTerminalOutput true id (ascii "ls") = ([.passthrough (ascii "ls")], new) := by
  have hm : outputMayContainTrigger (ascii "ls") = false := by decide
  exact ⟨hm, (terminal_output_is_conserved []).2 id (ascii "ls") rfl hm⟩

end Detector

end NyaTerm.Trzsz

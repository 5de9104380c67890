import NyaTerm.Tmux.Detect

open List

namespace NyaTerm.Tmux

open Probe (marks)

section Startup

variable {startup : Startup} {line : Bytes}

-- A pair of lines with the same identity.
def HasBlock (lines : List Bytes) : Prop :=
  ∃ before first middle last after id, lines = before ++ first :: middle ++ last :: after ∧
    marks first (.begin id) ∧ marks last (.end id)

def HasSession (lines : List Bytes) : Prop :=
  ∃ line ∈ lines, ∃ number, marks line (.session ('$' :: number)) ∧ (parseU64 number).isSome

-- What the lines that have been read have to do with the state.
structure Startup.Follows (startup : Startup) (lines : List Bytes) : Prop where
  opened : ∀ id, startup.block = some id → ∃ first ∈ lines, marks first (.begin id)
  completed : startup.completed = true → HasBlock lines
  session : startup.session = true → HasSession lines

theorem Startup.follows_new : Startup.new.Follows [] where
  opened := nofun
  completed := nofun
  session := nofun

theorem HasBlock.append (h : HasBlock lines) (line : Bytes) : HasBlock (lines ++ [line]) := by
  obtain ⟨before, first, middle, last, after, id, rfl, hfirst, hlast⟩ := h
  exact ⟨before, first, middle, last, after ++ [line], id, by simp, hfirst, hlast⟩

theorem HasSession.append (h : HasSession lines) (line : Bytes) : HasSession (lines ++ [line]) := by
  obtain ⟨session, hmem, hsession⟩ := h
  exact ⟨session, mem_append_left _ hmem, hsession⟩

theorem Startup.line_eq_some (h : startup.line line = some (startup', confirmed)) : ∃ m,
    marks line m ∧ startup.mark m = some startup' ∧
      confirmed = (startup'.completed && startup'.session) := by
  obtain ⟨text, htext, hrest⟩ := Option.bind_eq_some_iff.mp h
  obtain ⟨next, hmark, heq⟩ := Option.bind_eq_some_iff.mp hrest
  cases heq
  exact ⟨_, Option.map_eq_some_iff.mpr ⟨text, htext, rfl⟩, hmark, rfl⟩

theorem Startup.Follows.next (h : startup.Follows lines)
    (hline : startup.line line = some (startup', confirmed)) : startup'.Follows (lines ++ [line]) := by
  obtain ⟨m, hmarks, hmark, -⟩ := Startup.line_eq_some hline
  have hkept : startup.Follows (lines ++ [line]) := {
    opened := by
      intro id hid
      obtain ⟨first, hmem, hfirst⟩ := h.opened id hid
      exact ⟨first, mem_append_left _ hmem, hfirst⟩
    completed := fun hc => (h.completed hc).append line
    session := fun hs => (h.session hs).append line }
  have hnew : line ∈ lines ++ [line] := by simp
  cases m <;> simp [Startup.mark] at hmark
  case begin id =>
    obtain ⟨-, rfl⟩ := hmark
    exact ⟨fun _ hid => ⟨line, hnew, Option.some.inj hid ▸ hmarks⟩, hkept.completed, hkept.session⟩
  case «end» id =>
    obtain ⟨hblock, rfl⟩ := hmark
    refine ⟨nofun, fun _ => ?_, hkept.session⟩
    obtain ⟨first, hmem, hfirst⟩ := h.opened id hblock
    obtain ⟨before, middle, rfl⟩ := append_of_mem hmem
    exact ⟨before, first, middle, line, [], id, rfl, hfirst, hmarks⟩
  case session session =>
    split at hmark
    case isTrue => exact Option.some.inj hmark ▸ hkept
    case isFalse =>
      obtain ⟨hsession, ⟨⟩⟩ := Option.ite_none_right_eq_some.mp hmark
      refine { hkept with session := fun _ => ?_ }
      cases session
      case nil => cases hsession.1
      case cons c number =>
        have hc : c = '$' := Option.some.inj hsession.1
        exact ⟨line, hnew, number, hc ▸ hmarks, hsession.2⟩
  case notification => exact hmark ▸ hkept
  case none => exact hmark.2 ▸ hkept

end Startup

-- The bytes of a startup: complete lines, behind the introducer if there is one.
def IsStartup (bytes : Bytes) : Prop :=
  ∃ introducer lines, bytes = introducer ++ Lines.join newline lines ∧
    (introducer = [] ∨ introducer = controlPrefix) ∧ (∀ line ∈ lines, newline ∉ line) ∧
    HasBlock lines ∧ HasSession lines

namespace Detector

variable {detector : Detector} {candidate : Bytes} {now : Nat} {byte : UInt8}

-- The lines of a candidate up to the offset have been read.
def Framed (candidate : Bytes) (offset : Nat) (startup : Startup) : Prop :=
  ∃ introducer lines rest, candidate = introducer ++ Lines.join newline lines ++ rest ∧
    (introducer = [] ∨ introducer = controlPrefix) ∧ (∀ line ∈ lines, newline ∉ line) ∧
    newline ∉ rest ∧ startup.Follows lines ∧
    offset = (introducer ++ Lines.join newline lines).length ∧ (lines = [] → introducer = [])

structure Valid (detector : Detector) : Prop where
  done : detector.done = true → detector.candidate = none
  bounded : ∀ candidate ∈ detector.candidate, candidate.length ≤ confirmMaxBytes
  framed : ∀ candidate ∈ detector.candidate, Framed candidate detector.startupOffset detector.startup
  idle : detector.candidate = none → detector.startupOffset = 0 ∧ detector.startup = .new

def held (detector : Detector) : Bytes :=
  detector.candidate.getD []

def Step.out : Step → Bytes
  | .forward out => out
  | .overflow out => out
  | .detected startup => startup

theorem flush_conserves : detector.flush.1.out ++ detector.flush.2.held = detector.held := by
  rw [flush]
  split <;> exact append_nil _

theorem candidateLine_conserves (h : detector.candidate = some candidate) :
    (detector.candidateLine candidate).1.out ++ (detector.candidateLine candidate).2.held = candidate := by
  rw [candidateLine]
  split <;> simp [Step.out, held, takeCandidate, h]

theorem candidateByte_conserves :
    (detector.candidateByte candidate byte).1.out ++ (detector.candidateByte candidate byte).2.held =
      candidate ++ [byte] := by
  rw [candidateByte]
  split_ifs
  · exact append_nil _
  · exact flush_conserves
  · exact candidateLine_conserves rfl
  · rfl

theorem step_conserves :
    (detector.step now byte).1.out ++ (detector.step now byte).2.held = detector.held ++ [byte] := by
  rw [step]
  split
  case h_1 candidate h =>
    rw [candidateByte_conserves, held, h]
    rfl
  case h_2 h =>
    split_ifs
    · simp [Step.out, held, h]
    · rw [candidateByte_conserves, held, h]
      rfl
    · simp [Step.out, held, forwardByte, h]

section Framed

variable {offset : Nat} {startup : Startup}

theorem framed_nil : Framed [] 0 Startup.new :=
  ⟨[], [], [], rfl, .inl rfl, fun _ h => absurd h not_mem_nil, not_mem_nil, Startup.follows_new,
    rfl, fun _ => rfl⟩

theorem Framed.append (h : Framed candidate offset startup) (hb : byte ≠ newline) :
    Framed (candidate ++ [byte]) offset startup := by
  obtain ⟨introducer, lines, rest, rfl, hintro, hlines, hrest, hfollows, hoffset, hnil⟩ := h
  refine ⟨introducer, lines, rest ++ [byte], by rw [append_assoc _ rest], hintro, hlines, ?_,
    hfollows, hoffset, hnil⟩
  rw [mem_append, mem_singleton, not_or]
  exact ⟨hrest, Ne.symm hb⟩

theorem Framed.line (h : Framed candidate offset startup) : ∃ introducer lines line,
    candidate ++ [newline] = introducer ++ Lines.join newline (lines ++ [line]) ∧
    (introducer = [] ∨ introducer = controlPrefix) ∧ (∀ l ∈ lines ++ [line], newline ∉ l) ∧
    startup.Follows lines ∧
    (if offset = 0 then stripControlPrefix ((candidate ++ [newline]).drop offset).dropLast
      else ((candidate ++ [newline]).drop offset).dropLast) = line := by
  obtain ⟨introducer, lines, rest, rfl, hintro, hlines, hrest, hfollows, rfl, hnil⟩ := h
  have hline : ((introducer ++ Lines.join newline lines ++ rest ++ [newline]).drop
      (introducer ++ Lines.join newline lines).length).dropLast = rest := by
    rw [append_assoc, drop_left, dropLast_concat]
  have hfree : ∀ line, newline ∉ line → ∀ l ∈ lines ++ [line], newline ∉ l := by
    intro line hline
    rw [forall_mem_append, forall_mem_singleton]
    exact ⟨hlines, hline⟩
  rw [hline]
  cases lines
  case nil =>
    obtain rfl := hnil rfl
    have hzero : ([] ++ Lines.join newline [] : Bytes).length = 0 := rfl
    rw [if_pos hzero, stripControlPrefix]
    split
    case isTrue hprefix =>
      obtain ⟨line, rfl⟩ := isPrefixOf_iff_prefix.mp hprefix
      refine ⟨controlPrefix, [], line, ?_, .inr rfl, hfree line ?_, hfollows, drop_left⟩
      · simp [Lines.join]
      · exact fun hmem => hrest (mem_append_right _ hmem)
    case isFalse =>
      exact ⟨[], [], rest, by simp [Lines.join], .inl rfl, hfree rest hrest, hfollows, rfl⟩
  case cons first lines =>
    rw [if_neg (by rw [Lines.join_cons]; simp)]
    refine ⟨introducer, first :: lines, rest, ?_, hintro, hfree rest hrest, hfollows, rfl⟩
    simp [Lines.join]

end Framed

theorem valid_of_none (hc : detector.candidate = none) (ho : detector.startupOffset = 0)
    (hs : detector.startup = .new) : detector.Valid where
  done := fun _ => hc
  bounded := fun _ h => (by rw [hc] at h; cases h)
  framed := fun _ h => (by rw [hc] at h; cases h)
  idle := fun _ => ⟨ho, hs⟩

-- A candidate that is opened or goes on.
structure Open (detector : Detector) (candidate : Bytes) : Prop where
  done : detector.done = false
  bounded : candidate.length ≤ confirmMaxBytes
  framed : Framed candidate detector.startupOffset detector.startup

theorem flush_valid : detector.flush.2.Valid := by
  rw [flush]
  split <;> exact valid_of_none rfl rfl rfl

theorem candidateLine_spec (hd : detector.done = false)
    (hc : detector.candidate = some (candidate ++ [newline]))
    (hb : (candidate ++ [newline]).length ≤ confirmMaxBytes)
    (hf : Framed candidate detector.startupOffset detector.startup) :
    (detector.candidateLine (candidate ++ [newline])).2.Valid ∧
      ∀ startup, (detector.candidateLine (candidate ++ [newline])).1 = .detected startup →
        IsStartup startup := by
  obtain ⟨introducer, lines, line, heq, hintro, hfree, hfollows, hline⟩ := hf.line
  rw [candidateLine]
  rw [hline]
  split
  case h_1 => exact ⟨valid_of_none rfl rfl rfl, nofun⟩
  case h_2 startup hnext =>
    refine ⟨⟨by simp [hd], by simpa [hc] using hb, ?_, by simp [hc]⟩, nofun⟩
    rw [hc]
    rintro _ ⟨⟩
    exact ⟨introducer, lines ++ [line], [], by rw [heq, append_nil], hintro, hfree,
      not_mem_nil, hfollows.next hnext, congrArg List.length heq, by simp⟩
  case h_3 startup hnext =>
    refine ⟨valid_of_none rfl rfl rfl, ?_⟩
    rintro _ ⟨⟩
    obtain ⟨-, -, -, hconfirmed⟩ := Startup.line_eq_some hnext
    have hboth := (Bool.and_eq_true _ _).mp hconfirmed.symm
    exact ⟨introducer, lines ++ [line], heq, hintro, hfree, (hfollows.next hnext).completed hboth.1,
      (hfollows.next hnext).session hboth.2⟩

theorem candidateByte_spec (h : detector.Open candidate) :
    (detector.candidateByte candidate byte).2.Valid ∧
      ∀ startup, (detector.candidateByte candidate byte).1 = .detected startup → IsStartup startup := by
  rw [candidateByte]
  split_ifs with hover hflush hnewline
  · exact ⟨valid_of_none rfl rfl rfl, nofun⟩
  · refine ⟨flush_valid, fun startup h => ?_⟩
    rw [flush] at h
    split at h <;> cases h
  · subst hnewline
    exact candidateLine_spec h.done rfl (Nat.le_of_not_lt hover) h.framed
  · refine ⟨⟨by simp [h.done], ?_, ?_, nofun⟩, nofun⟩
    · rintro _ ⟨⟩
      exact Nat.le_of_not_lt hover
    · rintro _ ⟨⟩
      exact h.framed.append hnewline

theorem step_spec (h : detector.Valid) (hd : detector.done = false) :
    (detector.step now byte).2.Valid ∧
      ∀ startup, (detector.step now byte).1 = .detected startup → IsStartup startup := by
  rw [step]
  split
  case h_1 candidate hc =>
    exact candidateByte_spec ⟨hd, h.bounded candidate hc, h.framed candidate hc⟩
  case h_2 hc =>
    have hidle := h.idle hc
    split_ifs
    · exact ⟨valid_of_none hc hidle.1 hidle.2, nofun⟩
    · refine candidateByte_spec ⟨hd, Nat.zero_le _, ?_⟩
      rw [hidle.1, hidle.2]
      exact framed_nil
    · exact ⟨valid_of_none hc hidle.1 hidle.2, nofun⟩

-- A step that goes on changes neither what arms the detector nor whether it is done, and a deadline
-- that it sets lies ahead.
structure Continues (detector detector' : Detector) (now : Nat) : Prop where
  done : detector'.done = detector.done
  armed : detector'.armedAt = detector.armedAt
  blind : detector'.blindArmAt = detector.blindArmAt
  deadline : detector.isExpired now = false → detector'.isExpired now = false

-- Output does not arm the detector.
structure Disarms (detector detector' : Detector) : Prop where
  armed : detector'.armedAt = detector.armedAt ∨ detector'.armedAt = none
  blind : detector'.blindArmAt = detector.blindArmAt ∨ detector'.blindArmAt = none

-- What a step leads to.
inductive Outcome (detector : Detector) (now : Nat) : Step × Detector → Prop
  | forward {out : Bytes} {next : Detector} :
    Continues detector next now → Outcome detector now (.forward out, next)
  | overflow {out : Bytes} {last : Detector} :
    last.done = detector.done → Outcome detector now (.overflow out, last.expireCandidate.2)
  | detected {startup : Bytes} {next : Detector} : next.done = true → next.candidate = none →
    Disarms detector next → Outcome detector now (.detected startup, next)

section Frame

theorem Disarms.refl : Disarms detector detector :=
  ⟨.inl rfl, .inl rfl⟩

theorem Disarms.trans (h : Disarms detector detector') (h' : Disarms detector' detector'') :
    Disarms detector detector'' where
  armed := h'.armed.elim (fun e => e ▸ h.armed) .inr
  blind := h'.blind.elim (fun e => e ▸ h.blind) .inr

theorem expireCandidate_disarms : Disarms detector detector.expireCandidate.2 :=
  ⟨.inr rfl, .inr rfl⟩

section

variable (h : Continues detector detector' now)
include h

theorem Continues.disarms : Disarms detector detector' :=
  ⟨.inl h.armed, .inl h.blind⟩

theorem Continues.isArmed :
    detector'.isArmed now = detector.isArmed now := by
  rw [Detector.isArmed, Detector.isArmed, h.armed, h.blind]

theorem Continues.outcome (h' : Outcome detector' now stepped) : Outcome detector now stepped := by
  cases h'
  case forward h' =>
    exact .forward ⟨h'.done.trans h.done, h'.armed.trans h.armed, h'.blind.trans h.blind,
      fun hd => h'.deadline (h.deadline hd)⟩
  case overflow hd => exact .overflow (hd.trans h.done)
  case detected hd hc ha => exact .detected hd hc (h.disarms.trans ha)

end

theorem flush_outcome : Outcome detector now detector.flush := by
  rw [flush]
  split <;> exact .forward ⟨rfl, rfl, rfl, fun _ => rfl⟩

theorem candidateLine_outcome : Outcome detector now (detector.candidateLine candidate) := by
  rw [candidateLine]
  split
  case h_1 => exact .forward ⟨rfl, rfl, rfl, fun _ => rfl⟩
  case h_2 => exact .forward ⟨rfl, rfl, rfl, fun h => h⟩
  case h_3 => exact .detected rfl rfl ⟨.inl rfl, .inl rfl⟩

theorem candidateByte_outcome : Outcome detector now (detector.candidateByte candidate byte) := by
  have hkept : Continues detector { detector with candidate := some (candidate ++ [byte]) } now :=
    ⟨rfl, rfl, rfl, fun h => h⟩
  rw [candidateByte]
  split_ifs
  · exact .overflow rfl
  · exact hkept.outcome flush_outcome
  · exact hkept.outcome candidateLine_outcome
  · exact .forward hkept

theorem step_outcome (detector : Detector) (now : Nat) (byte : UInt8) :
    Outcome detector now (detector.step now byte) := by
  rw [step]
  split
  case h_1 => exact candidateByte_outcome
  split_ifs
  · exact .forward ⟨rfl, rfl, rfl, fun h => h⟩
  · have hdeadline : Continues detector
        { detector with candidateDeadline := some (now + confirmTimeout) } now :=
      ⟨rfl, rfl, rfl, fun _ => by simp [isExpired, confirmTimeout]⟩
    exact hdeadline.outcome candidateByte_outcome
  · exact .forward ⟨rfl, rfl, rfl, fun h => h⟩

end Frame

end Detector

-- All bytes of a result.
def TmuxFeed.emitted : TmuxFeed → Bytes
  | .passthrough bytes => bytes
  | .detected before startup rest => before ++ startup ++ rest

theorem TmuxFeed.emitted_prepend (out : Bytes) (fed : TmuxFeed) :
    (fed.prepend out).emitted = out ++ fed.emitted := by
  cases fed
  case passthrough => rfl
  case detected => simp [TmuxFeed.prepend, TmuxFeed.emitted]

theorem TmuxFeed.prepend_detected {fed : TmuxFeed}
    (h : fed.prepend out = .detected before startup rest) :
    ∃ before', fed = .detected before' startup rest := by
  cases fed
  case passthrough => cases h
  case detected => cases h; exact ⟨_, rfl⟩

namespace Detector

section Scan

variable {detector next : Detector} {now : Nat} {byte : UInt8} {data startup : Bytes}

theorem scan_forward (h : detector.step now byte = (.forward out, next)) :
    detector.scan now (byte :: data) =
      ((next.scan now data).1.prepend out, (next.scan now data).2) := by
  rw [scan, h]

theorem scan_overflow (h : detector.step now byte = (.overflow out, next)) :
    detector.scan now (byte :: data) = (.passthrough (out ++ data), next) := by
  rw [scan, h]

theorem scan_detected (h : detector.step now byte = (.detected startup, next)) :
    detector.scan now (byte :: data) = (.detected [] startup data, next) := by
  rw [scan, h]

theorem held_of_none (h : detector.candidate = none) : detector.held = [] := by
  rw [held, h]
  rfl

theorem scan_conserves (data : Bytes) (detector : Detector) :
    (detector.scan now data).1.emitted ++ (detector.scan now data).2.held = detector.held ++ data := by
  induction data generalizing detector
  case nil => rw [append_nil]; rfl
  case cons byte data ih =>
    have hbytes := @step_conserves detector now byte
    have houtcome := step_outcome detector now byte
    rw [← singleton_append, ← append_assoc, ← hbytes, singleton_append]
    generalize hs : detector.step now byte = stepped at houtcome
    cases houtcome
    case forward =>
      rw [scan_forward hs, TmuxFeed.emitted_prepend, append_assoc, ih, append_assoc]
      rfl
    case overflow out last _ =>
      rw [scan_overflow hs, @held_of_none last.expireCandidate.2 rfl]
      simp [TmuxFeed.emitted, Step.out]
    case detected hc _ =>
      rw [scan_detected hs, held_of_none hc]
      simp [TmuxFeed.emitted, Step.out]

theorem scan_spec (data : Bytes) (detector : Detector) (h : detector.Valid) (hd : detector.done = false) :
    (detector.scan now data).2.Valid ∧ Disarms detector (detector.scan now data).2 ∧
      ∀ before startup rest, (detector.scan now data).1 = .detected before startup rest →
        IsStartup startup := by
  induction data generalizing detector
  case nil => exact ⟨h, .refl, nofun⟩
  case cons byte data ih =>
    obtain ⟨hvalid, hstartup⟩ := @step_spec detector now byte h hd
    have houtcome := step_outcome detector now byte
    generalize hs : detector.step now byte = stepped at hvalid hstartup houtcome
    cases houtcome
    case forward hcontinues =>
      obtain ⟨hv, hdisarms, hdetected⟩ := ih _ hvalid (hcontinues.done.trans hd)
      rw [scan_forward hs]
      refine ⟨hv, hcontinues.disarms.trans hdisarms, fun before startup rest heq => ?_⟩
      obtain ⟨before', heq'⟩ := TmuxFeed.prepend_detected heq
      exact hdetected _ _ _ heq'
    case overflow =>
      rw [scan_overflow hs]
      exact ⟨hvalid, ⟨.inr rfl, .inr rfl⟩, nofun⟩
    case detected hdisarms =>
      rw [scan_detected hs]
      refine ⟨hvalid, hdisarms, fun before startup' rest heq => ?_⟩
      cases heq
      exact hstartup _ rfl

end Scan

section Feed

variable {detector : Detector} {now : Nat}

-- The detector has no candidate and lets the output pass.
structure Idle (detector : Detector) (now : Nat) : Prop where
  candidate : detector.candidate = none
  done : detector.done = false
  deadline : detector.isExpired now = false
  armed : detector.isArmed now = false

theorem prepend_nil (fed : TmuxFeed) : fed.prepend [] = fed := by
  cases fed <;> rfl

def pass (detector : Detector) (data : Bytes) : Detector :=
  { detector with lineStart := if data = [] then detector.lineStart else endsLine data }

theorem feed_of_idle (h : detector.Idle now) :
    detector.feed now data = (.passthrough data, detector.pass data) := by
  rw [feed, if_neg (by simp [h.done]), if_neg (by simp [h.deadline])]
  dsimp only
  rw [if_neg (by simp [h.armed]), prepend_nil, passThrough, if_neg (by simp [h.candidate]), pass]
  split <;> rfl

theorem feed_of_armed (hd : detector.done = false) (he : detector.isExpired now = false)
    (ha : detector.isArmed now = true) : detector.feed now data = detector.scan now data := by
  simp [feed, hd, he, ha, prepend_nil]

-- How the detector is fed, whatever the output is.
inductive Feeding (detector : Detector) (now : Nat) : Prop
  | done (hd : detector.done = true)
    (h : ∀ data, detector.feed now data = (.passthrough data, detector))
  | armed (hd : detector.done = false) (he : detector.isExpired now = false)
    (ha : detector.isArmed now = true)
    (h : ∀ data, detector.feed now data = detector.scan now data)
  | idle (next : Detector) (hi : next.Idle now) (hd : Disarms detector next)
    (hv : detector.Valid → next.Valid)
    (h : ∀ data, detector.feed now data = (.passthrough (detector.held ++ data), next.pass data))

theorem feeding (detector : Detector) (now : Nat) : Feeding detector now := by
  cases hd : detector.done
  case true => exact .done hd fun data => if_pos hd
  cases he : detector.isExpired now
  case true =>
    refine .idle detector.expireCandidate.2 ⟨rfl, hd, rfl, rfl⟩ expireCandidate_disarms
      (fun _ => valid_of_none rfl rfl rfl) fun data => ?_
    rw [feed, if_neg (by simp [hd]), if_pos he]
    dsimp only
    rw [if_neg (by exact Bool.false_ne_true), passThrough, if_neg (by exact Bool.false_ne_true), pass]
    split <;> rfl
  cases ha : detector.isArmed now
  case true => exact .armed hd he ha fun data => feed_of_armed hd he ha
  cases hc : detector.candidate
  case none =>
    exact .idle detector ⟨hc, hd, he, ha⟩ .refl id fun data => by
      rw [feed_of_idle ⟨hc, hd, he, ha⟩, held_of_none hc, nil_append]
  case some =>
    refine .idle detector.takeCandidate.2 ⟨rfl, hd, rfl, ha⟩ ⟨.inl rfl, .inl rfl⟩
      (fun _ => valid_of_none rfl rfl rfl) fun data => ?_
    rw [feed, if_neg (by simp [hd]), if_neg (by simp [he])]
    dsimp only
    rw [if_neg (by simp [ha]), prepend_nil, passThrough, if_pos (by simp [hc]), pass]
    split <;> rfl

theorem feed_conserves (h : detector.Valid) :
    (detector.feed now data).1.emitted ++ (detector.feed now data).2.held = detector.held ++ data := by
  cases feeding detector now
  case done hd hf =>
    rw [hf, held_of_none (h.done hd)]
    exact append_nil _
  case armed hf => rw [hf, scan_conserves]
  case idle next hi _ _ hf =>
    rw [hf, @held_of_none (next.pass data) hi.candidate]
    exact append_nil _

theorem feed_spec (h : detector.Valid) :
    (detector.feed now data).2.Valid ∧ Disarms detector (detector.feed now data).2 ∧
      ∀ before startup rest, (detector.feed now data).1 = .detected before startup rest →
        detector.isArmed now = true ∧ IsStartup startup := by
  cases feeding detector now
  case done hf =>
    rw [hf]
    exact ⟨h, .refl, nofun⟩
  case armed hd _ ha hf =>
    rw [hf]
    have ⟨hvalid, hdisarms, hdetected⟩ := @scan_spec now data detector h hd
    exact ⟨hvalid, hdisarms, fun _ _ _ heq => ⟨ha, hdetected _ _ _ heq⟩⟩
  case idle hd hv hf =>
    rw [hf]
    exact ⟨{ hv h with }, { hd with }, nofun⟩

end Feed

section Run

variable {detector : Detector} {event : Event}

-- The output that arrives.
def Event.bytes : Event → Bytes
  | .output _ data => data
  | _ => []

-- An input has armed the detector.
def ArmedBy (detector : Detector) (events : List Event) : Prop :=
  ∀ now, detector.armedAt = some now ∨ detector.blindArmAt = some now →
    ∃ data, Event.input now data ∈ events

theorem ArmedBy.disarms (h : detector.ArmedBy events) (hd : Disarms detector detector') :
    detector'.ArmedBy events := by
  rintro now (ha | hb)
  · obtain e | e := hd.armed
    · exact h now (.inl (e ▸ ha))
    · simp [e] at ha
  · obtain e | e := hd.blind
    · exact h now (.inr (e ▸ hb))
    · simp [e] at hb

-- Input changes nothing of a candidate, and it arms the detector at its own time only.
structure Typed (detector detector' : Detector) (now : Nat) : Prop where
  candidate : detector'.candidate = detector.candidate
  done : detector'.done = detector.done
  startup : detector'.startup = detector.startup
  offset : detector'.startupOffset = detector.startupOffset
  armed : ∀ t, detector'.armedAt = some t → detector.armedAt = some t ∨ t = now
  blind : ∀ t, detector'.blindArmAt = some t → detector.blindArmAt = some t ∨ t = now

theorem Typed.refl : Typed detector detector now :=
  ⟨rfl, rfl, rfl, rfl, fun _ h => .inl h, fun _ h => .inl h⟩

theorem evaluateInputLine_typed {now : Nat} {line : Bytes} :
    Typed detector (detector.evaluateInputLine now line) now := by
  rw [evaluateInputLine]
  split_ifs
  · exact ⟨rfl, rfl, rfl, rfl, fun _ h => .inr (Option.some.inj h).symm, fun _ h => .inl h⟩
  · exact ⟨rfl, rfl, rfl, rfl, nofun, fun _ h => .inl h⟩
  · exact .refl

theorem submit_typed : Typed detector (detector.submit now) now := by
  rw [submit]
  split_ifs
  · exact ⟨rfl, rfl, rfl, rfl, fun _ h => .inl h, fun _ h => .inr (Option.some.inj h).symm⟩
  · exact ⟨rfl, rfl, rfl, rfl, fun _ h => .inl h, fun _ h => .inl h⟩
  · obtain ⟨hc, hd, hs, ho, ha, hb⟩ := @evaluateInputLine_typed
      { detector with inputLine := [], inputSawEscape := false, blindArmAt := none } now detector.inputLine
    exact ⟨hc, hd, hs, ho, ha, fun t h => (hb t h).elim (nofun) .inr⟩

theorem inputByte_typed : Typed detector (detector.inputByte now byte) now := by
  rw [inputByte]
  split
  case h_2 => split <;> exact ⟨rfl, rfl, rfl, rfl, fun _ h => .inl h, fun _ h => .inl h⟩
  case h_6 =>
    split_ifs
    · exact submit_typed
    all_goals exact ⟨rfl, rfl, rfl, rfl, fun _ h => .inl h, fun _ h => .inl h⟩
  all_goals exact ⟨rfl, rfl, rfl, rfl, fun _ h => .inl h, fun _ h => .inl h⟩

theorem Typed.trans {detector' detector'' : Detector} {now : Nat} (h : Typed detector detector' now)
    (h' : Typed detector' detector'' now) : Typed detector detector'' now where
  candidate := h'.candidate.trans h.candidate
  done := h'.done.trans h.done
  startup := h'.startup.trans h.startup
  offset := h'.offset.trans h.offset
  armed := fun t ht => (h'.armed t ht).elim (h.armed t) .inr
  blind := fun t ht => (h'.blind t ht).elim (h.blind t) .inr

theorem feedInput_typed {now : Nat} {data : Bytes} : Typed detector (detector.feedInput now data) now := by
  rw [feedInput]
  split
  case isTrue => exact .refl
  case isFalse =>
    clear * -
    induction data generalizing detector
    case nil => exact .refl
    case cons byte data ih => exact inputByte_typed.trans ih

theorem Typed.valid {detector' : Detector} {now : Nat} (h : Typed detector detector' now)
    (hv : detector.Valid) : detector'.Valid where
  done := fun hd => h.candidate.trans (hv.done (h.done ▸ hd))
  bounded := by rw [h.candidate]; exact hv.bounded
  framed := by rw [h.candidate, h.offset, h.startup]; exact hv.framed
  idle := by rw [h.candidate, h.offset, h.startup]; exact hv.idle

theorem ArmedBy.mono (h : detector.ArmedBy events) : detector.ArmedBy (events ++ events') := by
  intro now hnow
  obtain ⟨data, hmem⟩ := h now hnow
  exact ⟨data, mem_append_left _ hmem⟩

theorem expireSilence_disarms : Disarms detector (detector.expireSilence now).2 := by
  rw [expireSilence]
  split
  · exact .refl
  · exact ⟨.inr rfl, .inr rfl⟩

theorem react_spec (h : detector.Valid) (ha : detector.ArmedBy events) :
    (detector.react event).2.Valid ∧ (detector.react event).2.ArmedBy (events ++ [event]) ∧
      (detector.react event).1.emitted ++ (detector.react event).2.held =
        detector.held ++ event.bytes := by
  cases event
  case input now data =>
    have htyped := @feedInput_typed detector now data
    refine ⟨htyped.valid h, ?_, by simp [react, held, htyped.candidate, TmuxFeed.emitted, Event.bytes]⟩
    have hkept : ∀ t, (detector.armedAt = some t ∨ detector.blindArmAt = some t) ∨ t = now →
        ∃ data', Event.input t data' ∈ events ++ [.input now data] := by
      rintro t (ht | rfl)
      · exact ha.mono t ht
      · exact ⟨data, by simp⟩
    rintro t (ht | ht)
    · exact hkept t ((htyped.armed t ht).imp_left .inl)
    · exact hkept t ((htyped.blind t ht).imp_left .inr)
  case output now data =>
    obtain ⟨hvalid, hdisarms, -⟩ := @feed_spec detector now data h
    exact ⟨hvalid, ha.mono.disarms hdisarms, feed_conserves h⟩
  case expireCandidate =>
    exact ⟨valid_of_none rfl rfl rfl, ha.mono.disarms expireCandidate_disarms, rfl⟩
  case expireSilence now =>
    refine ⟨?_, ha.mono.disarms expireSilence_disarms, ?_⟩
    · rw [react, expireSilence]
      split <;> exact { h with }
    · rw [react, expireSilence]
      split <;> exact (append_nil _).symm

theorem run_spec (events : List Event) (past : List Event) (detector : Detector) (h : detector.Valid)
    (ha : detector.ArmedBy past) :
    (detector.run events).2.Valid ∧ (detector.run events).2.ArmedBy (past ++ events) ∧
      (detector.run events).1.flatMap TmuxFeed.emitted ++ (detector.run events).2.held =
        detector.held ++ events.flatMap Event.bytes := by
  induction events generalizing past detector
  case nil =>
    rw [append_nil, flatMap_nil, append_nil]
    exact ⟨h, ha, rfl⟩
  case cons event events ih =>
    obtain ⟨hvalid, harmed, hbytes⟩ := @react_spec detector event past h ha
    obtain ⟨hv, hr, hb⟩ := ih (past ++ [event]) (detector.react event).2 hvalid harmed
    rw [run]
    refine ⟨hv, ?_, ?_⟩
    · rw [append_assoc, singleton_append] at hr
      exact hr
    · rw [flatMap_cons, flatMap_cons, append_assoc, hb, ← append_assoc, hbytes,
        append_assoc]

theorem new_valid : new.Valid :=
  valid_of_none rfl rfl rfl

theorem new_armedBy : new.ArmedBy [] := by
  rintro now (h | h) <;> cases h

theorem ArmedBy.recent (h : detector.ArmedBy events) (ha : detector.isArmed now = true) :
    ∃ t typed, Event.input t typed ∈ events ∧ now - t ≤ armWindow := by
  rw [isArmed, Bool.or_eq_true, Option.any_eq_true, Option.any_eq_true] at ha
  obtain ⟨t, ht, hnow⟩ | ⟨t, ht, hnow⟩ := ha
  · obtain ⟨typed, hmem⟩ := h t (.inl ht)
    exact ⟨t, typed, hmem, of_decide_eq_true hnow⟩
  · obtain ⟨typed, hmem⟩ := h t (.inr ht)
    exact ⟨t, typed, hmem, (of_decide_eq_true hnow).trans (by decide)⟩

end Run

end Detector

-- A result that a later one follows.
def TmuxFeed.join : TmuxFeed → TmuxFeed → TmuxFeed
  | .passthrough out, later => later.prepend out
  | .detected before startup rest, later => .detected before startup (rest ++ later.emitted)

namespace Detector

section Division

variable {detector : Detector}

-- The candidate reaches its limit before the last byte of the output.
def overflows (detector : Detector) (now : Nat) : Bytes → Bool
  | [] => false
  | byte :: rest =>
    match (detector.step now byte).1 with
    | .forward _ => (detector.step now byte).2.overflows now rest
    | .overflow _ => rest ≠ []
    | .detected _ => false

def overruns (detector : Detector) (now : Nat) (data : Bytes) : Bool :=
  !detector.done && !detector.isExpired now && detector.isArmed now && detector.overflows now data

def feedAll (detector : Detector) (now : Nat) : List Bytes → TmuxFeed × Detector
  | [] => (.passthrough [], detector)
  | chunk :: chunks =>
    let later := (detector.feed now chunk).2.feedAll now chunks
    ((detector.feed now chunk).1.join later.1, later.2)

theorem prepend_join (fed next : TmuxFeed) : (fed.join next).prepend out = (fed.prepend out).join next := by
  cases fed
  case passthrough => cases next <;> simp [TmuxFeed.join, TmuxFeed.prepend]
  case detected => rfl

theorem join_nil (fed : TmuxFeed) : fed.join (.passthrough []) = fed := by
  cases fed <;> simp [TmuxFeed.join, TmuxFeed.prepend, TmuxFeed.emitted]

theorem endsLine_append (h : later ≠ []) : endsLine (data ++ later) = endsLine later := by
  rw [endsLine, endsLine, getLast?_append_of_ne_nil data h]

theorem overruns_of_unarmed (h : detector.isArmed now = false) : detector.overruns now data = false := by
  rw [overruns, h, Bool.and_false, Bool.false_and]

theorem overruns_of_done (h : detector.done = true) : detector.overruns now data = false := by
  rw [overruns, h]
  rfl

theorem scan_append (data : Bytes) (detector : Detector) (hd : detector.done = false)
    (he : detector.isExpired now = false) (ha : detector.isArmed now = true)
    (ho : detector.overflows now (data ++ later) = false) :
    detector.scan now (data ++ later) =
      ((detector.scan now data).1.join ((detector.scan now data).2.feed now later).1,
        ((detector.scan now data).2.feed now later).2) ∧
    (detector.scan now data).2.overruns now later = false := by
  induction data generalizing detector
  case nil =>
    rw [nil_append] at ho ⊢
    rw [scan, feed_of_armed hd he ha, TmuxFeed.join, prepend_nil, overruns, ho, Bool.and_false]
    exact ⟨rfl, rfl⟩
  case cons byte data ih =>
    rw [cons_append] at ho ⊢
    rw [overflows] at ho
    have houtcome := step_outcome detector now byte
    generalize hs : detector.step now byte = stepped at ho houtcome
    cases houtcome
    case forward out next hc =>
      have ⟨hscan, hover⟩ := ih _ (hc.done.trans hd) (hc.deadline he) (hc.isArmed.trans ha) ho
      rw [scan_forward hs, scan_forward hs, hscan, prepend_join]
      exact ⟨rfl, hover⟩
    case overflow out last hdone =>
      obtain ⟨rfl, rfl⟩ := append_eq_nil_iff.mp (not_not.mp (of_decide_eq_false ho))
      rw [append_nil, scan_overflow hs,
        @feed_of_idle last.expireCandidate.2 now [] ⟨rfl, hdone.trans hd, rfl, rfl⟩, join_nil]
      exact ⟨rfl, overruns_of_unarmed rfl⟩
    case detected hdone _ _ =>
      rw [scan_detected hs, scan_detected hs, feed, if_pos hdone]
      exact ⟨rfl, overruns_of_done hdone⟩

theorem feed_append (ho : detector.overruns now (data ++ later) = false) :
    detector.feed now (data ++ later) =
      ((detector.feed now data).1.join ((detector.feed now data).2.feed now later).1,
        ((detector.feed now data).2.feed now later).2) ∧
    (detector.feed now data).2.overruns now later = false := by
  cases feeding detector now
  case done hd hf =>
    rw [hf, hf, hf]
    exact ⟨rfl, overruns_of_done hd⟩
  case armed hd he ha hf =>
    rw [overruns, hd, he, ha] at ho
    rw [hf, hf]
    exact scan_append data detector hd he ha ho
  case idle next hi _ _ hf =>
    rw [hf, hf, @feed_of_idle (next.pass data) now later { hi with }]
    refine ⟨Prod.ext (congrArg TmuxFeed.passthrough (append_assoc _ _ _).symm) ?_,
      overruns_of_unarmed hi.armed⟩
    by_cases hlater : later = []
    case pos => simp [pass, hlater]
    case neg => simp [pass, hlater, endsLine_append]

-- How output is divided does not matter unless the candidate reaches its limit in it.
theorem feedAll_eq (chunks : List Bytes) (detector : Detector) (hne : chunks ≠ [])
    (ho : detector.overruns now chunks.flatten = false) :
    detector.feedAll now chunks = detector.feed now chunks.flatten := by
  induction chunks generalizing detector
  case nil => exact absurd rfl hne
  case cons chunk chunks ih =>
    rw [flatten_cons] at ho ⊢
    rw [feedAll]
    cases chunks
    case nil =>
      rw [feedAll, flatten_nil, append_nil]
      rw [join_nil]
    case cons next chunks =>
      have ⟨hfeed, hover⟩ := feed_append ho
      rw [ih _ (cons_ne_nil _ _) hover, hfeed]

end Division

-- Every run conserves the output and keeps the candidate within its limit; a detection follows an
-- input that has armed the detector, and a complete startup; and the division of output does not
-- matter unless the candidate reaches its limit in the middle of it.
theorem detection_is_lossless (events : List Event) :
    (new.run events).1.flatMap TmuxFeed.emitted ++ (new.run events).2.candidate.getD [] =
        events.flatMap Event.bytes ∧
    ((new.run events).2.candidate.getD []).length ≤ confirmMaxBytes ∧
    (∀ before event after passed startup rest, events = before ++ event :: after →
      ((new.run before).2.react event).1 = .detected passed startup rest →
      (∃ now data typedAt typed, event = .output now data ∧ (new.run before).2.isArmed now ∧
        Event.input typedAt typed ∈ before ∧ now - typedAt ≤ armWindow) ∧ IsStartup startup) ∧
    (∀ now chunks, chunks ≠ [] → (new.run events).2.overruns now chunks.flatten = false →
      (new.run events).2.feedAll now chunks = (new.run events).2.feed now chunks.flatten) := by
  obtain ⟨hvalid, -, hbytes⟩ := run_spec events [] new new_valid new_armedBy
  refine ⟨hbytes, ?_, ?_, fun now chunks => feedAll_eq chunks _⟩
  · cases hc : (new.run events).2.candidate
    case none => exact Nat.zero_le _
    case some candidate => exact hvalid.bounded candidate hc
  · rintro before event after passed startup rest - hdetected
    obtain ⟨hv, harmed, -⟩ := run_spec before [] new new_valid new_armedBy
    cases event
    case output now data =>
      obtain ⟨-, -, hspec⟩ := @feed_spec (new.run before).2 now data hv
      obtain ⟨ha, hstartup⟩ := hspec passed startup rest hdetected
      obtain ⟨typedAt, typed, hmem, hrecent⟩ := harmed.recent ha
      exact ⟨⟨now, data, typedAt, typed, rfl, ha, hmem, hrecent⟩, hstartup⟩
    case input | expireCandidate | expireSilence => cases hdetected

section Overflow

variable {detector : Detector} {candidate : Bytes}

theorem scan_plain (hc : detector.candidate = some candidate) (ho : detector.startupOffset = 0)
    (hp : controlPrefix.length ≤ candidate.length) (hh : candidate.head? = some escape)
    (hl : candidate.length + data.length ≤ confirmMaxBytes) (hd : newline ∉ data) :
    detector.scan now data =
      (.passthrough [], { detector with candidate := some (candidate ++ data) }) := by
  induction data generalizing detector candidate
  case nil => rw [append_nil, ← hc]; rfl
  case cons byte data ih =>
    rw [mem_cons, not_or] at hd
    rw [length_cons] at hl
    have hhead : (candidate ++ [byte]).head? = some escape := by
      rw [head?_append, hh]
      rfl
    have hstep : detector.step now byte =
        (.forward [], { detector with candidate := some (candidate ++ [byte]) }) := by
      rw [step, hc]
      dsimp only
      rw [candidateByte]
      dsimp only
      rw [if_neg (by rw [length_append, length_singleton]; omega), if_neg, if_neg (Ne.symm hd.1)]
      rintro ⟨-, hlength, -⟩
      rw [startupPrefix, if_pos hhead, length_append, length_singleton] at hlength
      omega
    rw [scan_forward hstep,
      @ih { detector with candidate := some (candidate ++ [byte]) } (candidate ++ [byte]) rfl ho
        (by rw [length_append]; omega) hhead
        (by rw [length_append, length_singleton]; omega) hd.2]
    simp [TmuxFeed.prepend]

theorem step_full (hc : detector.candidate = some candidate)
    (hl : candidate.length = confirmMaxBytes) :
    detector.step now byte = (.overflow (candidate ++ [byte]),
      { detector with
        candidate := none
        candidateDeadline := none
        startup := .new
        startupOffset := 0
        armedAt := none
        blindArmAt := none
        lineStart := endsLine (candidate ++ [byte]) }) := by
  rw [step, hc]
  dsimp only
  rw [candidateByte]
  dsimp only
  rw [if_pos (by rw [length_append, hl, length_singleton]; omega)]
  rfl

end Overflow

end Detector

end NyaTerm.Tmux

namespace NyaTerm.Tmux.Detector.Sample

def typed : Bytes := toUtf8 "tmux -CC\n".toList

def startup : Bytes := toUtf8 "%begin 1 2 0\n%end 1 2 0\n%session-changed $0 0\n".toList

theorem detection_is_lossless_at_startup :
    ((new.run [.input 0 typed]).2.feedAll 0 [startup.take 20, startup.drop 20]) =
      (.detected [] startup [], { new with echoTail := true, armedAt := some 0, done := true }) :=
  ((detection_is_lossless [.input 0 typed]).2.2.2 0 [startup.take 20, startup.drop 20]
    (cons_ne_nil _ _) (by decide)).trans (by rfl)

def armed : Detector :=
  { new with echoTail := true, armedAt := some 0 }

-- The detector while a candidate is held.
def holding (candidate : Bytes) : Detector :=
  { armed with candidate := some candidate, candidateDeadline := some 5000 }

-- A candidate of the largest size.
def longest : Bytes :=
  controlPrefix ++ replicate (confirmMaxBytes - controlPrefix.length) 120

theorem scan_introducer (data : Bytes) :
    armed.scan 0 (controlPrefix ++ data) = (holding controlPrefix).scan 0 data := by
  have hcons : controlPrefix ++ data = 27 :: 80 :: 49 :: 48 :: 48 :: 48 :: 112 :: data := rfl
  have h : ∀ d d' : Detector, ∀ b bs, d.step 0 b = (.forward [], d') → d.scan 0 (b :: bs) = d'.scan 0 bs := by
    intro d d' b bs hstep
    rw [scan_forward hstep, prepend_nil]
  rw [hcons, h armed (holding [27]) 27 _ rfl, h (holding [27]) (holding [27, 80]) 80 _ rfl,
    h (holding [27, 80]) (holding [27, 80, 49]) 49 _ rfl,
    h (holding [27, 80, 49]) (holding [27, 80, 49, 48]) 48 _ rfl,
    h (holding [27, 80, 49, 48]) (holding [27, 80, 49, 48, 48]) 48 _ rfl,
    h (holding [27, 80, 49, 48, 48]) (holding [27, 80, 49, 48, 48, 48]) 48 _ rfl,
    h (holding [27, 80, 49, 48, 48, 48]) (holding controlPrefix) 112 _ rfl]

theorem feed_longest : armed.feed 0 longest = (.passthrough [], holding longest) := by
  rw [feed_of_armed rfl rfl rfl, longest, scan_introducer]
  refine scan_plain rfl rfl (Nat.le_refl _) rfl ?_ ?_
  · rw [length_replicate]
    decide
  · intro hmem
    exact absurd (eq_of_mem_replicate hmem) (by decide)

-- The detector after the limit.
def released (lineStart : Bool) : Detector :=
  { new with echoTail := true, lineStart }

theorem step_longest : (holding longest).step 0 120 = (.overflow (longest ++ [120]), released false) := by
  have hlength : longest.length = confirmMaxBytes := by
    rw [longest, length_append, length_replicate]
    decide
  have hends : endsLine (longest ++ [120]) = false := by
    rw [endsLine_append (cons_ne_nil _ _)]
    rfl
  rw [step_full rfl hlength, hends]
  rfl

-- The end of a line behind the limit is seen only if it is fed by itself.
theorem startup_behind_limit_depends_on_division :
    (new.run [.input 0 typed, .output 0 longest, .output 0 [120, 10], .input 0 typed,
      .output 0 startup]).1.getLast? = some (.passthrough startup) ∧
    (new.run [.input 0 typed, .output 0 longest, .output 0 [120], .output 0 [10], .input 0 typed,
      .output 0 startup]).1.getLast? = some (.detected [] startup []) := by
  have htyped : new.feedInput 0 typed = armed := rfl
  have hboth : (holding longest).feed 0 [120, 10] =
      (.passthrough (longest ++ [120] ++ [10]), released false) := by
    rw [feed_of_armed rfl rfl rfl, scan_overflow step_longest]
  have hfirst : (holding longest).feed 0 [120] = (.passthrough (longest ++ [120] ++ []), released false) := by
    rw [feed_of_armed rfl rfl rfl, scan_overflow step_longest]
  constructor
  · simp only [run, react, htyped, feed_longest, hboth]
    rfl
  · simp only [run, react, htyped, feed_longest, hfirst]
    rfl

end NyaTerm.Tmux.Detector.Sample

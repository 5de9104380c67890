import Mathlib.Data.List.Forall2
import Mathlib.Tactic.IntervalCases
import NyaTerm.Zmodem.Detect

open List

namespace NyaTerm.Zmodem.Detect

section Header

theorem headerAt_append (h : headerAt data = some direction) (later : Bytes) :
    headerAt (data ++ later) = some direction := by
  rcases data with - | ⟨a, - | ⟨b, - | ⟨c, - | ⟨kind, - | ⟨high, - | ⟨low, rest⟩⟩⟩⟩⟩⟩
  case cons.cons.cons.cons.nil => simp [headerAt, parseHexFrameType] at h
  case cons.cons.cons.cons.cons.nil =>
    -- One byte is the frame type of a binary header.
    by_cases hkind : kind = zhex
    · simp [headerAt, parseHexFrameType, hkind] at h
    · simpa [headerAt, hkind] using h
  case cons.cons.cons.cons.cons.cons => exact h
  all_goals cases h

theorem headerAt_of_long (h : 6 ≤ data.length) (later : Bytes) :
    headerAt (data ++ later) = headerAt data := by
  rcases data with - | ⟨a, - | ⟨b, - | ⟨c, - | ⟨kind, - | ⟨high, - | ⟨low, rest⟩⟩⟩⟩⟩⟩
  case cons.cons.cons.cons.cons.cons => rfl
  all_goals simp at h

theorem headerAt_of_short (h : data.length < 5) : headerAt data = none := by
  rcases data with - | ⟨a, - | ⟨b, - | ⟨c, - | ⟨kind, - | ⟨high, rest⟩⟩⟩⟩⟩
  case cons.cons.cons.cons.nil => simp [headerAt, parseHexFrameType]
  case cons.cons.cons.cons.cons => simp at h; omega
  all_goals rfl

theorem detect_eq_some : detectZmodemStart data = some (direction, n) ↔
    headerAt (data.drop n) = some direction ∧ ∀ m < n, headerAt (data.drop m) = none := by
  induction data generalizing n
  case nil =>
    rw [detectZmodemStart, drop_nil]
    exact ⟨nofun, fun h => (by cases h.1)⟩
  case cons b data ih =>
    rw [detectZmodemStart]
    cases hb : headerAt (b :: data)
    case some found =>
      constructor
      · intro h
        cases h
        exact ⟨hb, fun m hm => absurd hm (Nat.not_lt_zero m)⟩
      · rintro ⟨hn, hbefore⟩
        cases n
        case zero =>
          rw [drop_zero, hb] at hn
          cases hn
          rfl
        case succ n =>
          have hzero := hbefore 0 (Nat.succ_pos n)
          rw [drop_zero, hb] at hzero
          cases hzero
    case none =>
      rw [Option.map_eq_some_iff]
      constructor
      · rintro ⟨⟨found, m⟩, hfound, heq⟩
        cases heq
        obtain ⟨hm, hbefore⟩ := ih.mp hfound
        refine ⟨hm, fun k hk => ?_⟩
        cases k
        case zero => exact hb
        case succ k => exact hbefore k (Nat.lt_of_succ_lt_succ hk)
      · rintro ⟨hn, hbefore⟩
        cases n
        case zero =>
          rw [drop_zero, hb] at hn
          cases hn
        case succ n =>
          exact ⟨(direction, n), ih.mpr ⟨hn, fun m hm => hbefore (m + 1) (Nat.succ_lt_succ hm)⟩, rfl⟩

theorem detect_eq_none (h : ∀ m < data.length, headerAt (data.drop m) = none) :
    detectZmodemStart data = none := by
  cases hd : detectZmodemStart data
  case none => rfl
  case some found =>
    obtain ⟨direction, n⟩ := found
    have hn := (detect_eq_some.mp hd).1
    by_cases hlt : n < data.length
    case pos => rw [h n hlt] at hn; cases hn
    case neg => rw [drop_eq_nil_of_le (Nat.le_of_not_lt hlt)] at hn; cases hn

-- A header without any byte behind its frame type.
structure IsHeader (header : Bytes) (direction : Direction) : Prop where
  found : headerAt header = some direction
  minimal : ∀ k < header.length, headerAt (header.take k) = none

section

variable (h : IsHeader header direction)
include h

theorem IsHeader.length_le : header.length ≤ 6 := by
  by_contra hlong
  have hsix : headerAt (header.take 6) = some direction := by
    rw [← headerAt_of_long (by rw [length_take]; omega) (header.drop 6), take_append_drop]
    exact h.found
  rw [h.minimal 6 (by omega)] at hsix
  cases hsix

theorem IsHeader.le_length : 5 ≤ header.length := by
  by_contra hshort
  have hfound := h.found
  rw [headerAt_of_short (by omega)] at hfound
  cases hfound

theorem IsHeader.possible (hk : k < header.length) :
    isPossibleZmodemPrefix (header.take k) = true := by
  have hfound := h.found
  have hle := h.length_le
  have hge := h.le_length
  rcases header with - | ⟨a, - | ⟨b, - | ⟨c, - | ⟨kind, - | ⟨high, - | ⟨low, - | ⟨more, rest⟩⟩⟩⟩⟩⟩⟩
  case cons.cons.cons.cons.cons.nil =>
    simp only [headerAt] at hfound
    split at hfound
    case isFalse => cases hfound
    case isTrue hpad =>
      obtain ⟨rfl, rfl, rfl, hkind⟩ := hpad
      simp only [length_cons, length_nil] at hk
      interval_cases k <;> simp [isPossibleZmodemPrefix, hkind]
  case cons.cons.cons.cons.cons.cons.nil =>
    simp only [headerAt] at hfound
    split at hfound
    case isFalse => cases hfound
    case isTrue hpad =>
      obtain ⟨rfl, rfl, rfl, hkind⟩ := hpad
      have hhex : kind = zhex := by
        by_contra hne
        have hshort := h.minimal 5 (by simp)
        simp_all [headerAt]
      subst hhex
      have hhigh : (hexDigit high).isSome = true := by
        cases hdigit : hexDigit high
        case none => simp [parseHexFrameType, hdigit] at hfound
        case some => rfl
      simp only [length_cons, length_nil] at hk
      interval_cases k <;> simp [isPossibleZmodemPrefix, hkind, hhigh]
  all_goals
    simp only [length_cons, length_nil] at hle hge
    omega

end

end Header

section Retained

theorem lengthsDown_succ (max : Nat) : lengthsDown (max + 1) = (max + 1) :: lengthsDown max := by
  simp [lengthsDown, range_succ]

theorem find_lengthsDown {max : Nat} (hpos : 0 < len) (hmax : len ≤ max) (hp : p len = true) :
    ∃ found, (lengthsDown max).find? p = some found ∧ len ≤ found := by
  induction max
  case zero => omega
  case succ max ih =>
    rw [lengthsDown_succ]
    by_cases hlast : p (max + 1) = true
    case pos => exact ⟨max + 1, find?_cons_of_pos hlast, hmax⟩
    rw [find?_cons_of_neg hlast]
    apply ih
    by_contra hlt
    rw [show len = max + 1 by omega] at hp
    exact hlast hp

theorem retained_le_possible (data : Bytes) (flag : Bool) :
    retainedPrefixStart data flag ≤ possibleHeaderStart data flag := by
  rw [retainedPrefixStart]
  split
  case h_1 => exact Nat.min_le_left _ _
  case h_2 => exact Nat.le_refl _

theorem retained_le (data : Bytes) (flag : Bool) : retainedPrefixStart data flag ≤ data.length := by
  apply Nat.le_trans (retained_le_possible data flag)
  rw [possibleHeaderStart]
  split
  case h_1 => exact Nat.sub_le _ _
  case h_2 => exact Nat.le_refl _

theorem retained_le_of_possible (hpart : part ≠ []) (hshort : part.length ≤ headerLen + 1)
    (hpossible : isPossibleZmodemPrefix part = true)
    (hline : isLineStart (pre ++ part) pre.length flag = true) :
    retainedPrefixStart (pre ++ part) flag ≤ pre.length := by
  have hstart : (pre ++ part).length - part.length = pre.length := by
    rw [length_append, Nat.add_sub_cancel]
  have hretained : isRetained (pre ++ part) flag part.length = true := by
    simp [isRetained, hpossible, hline]
  obtain ⟨found, hfound, hle⟩ := find_lengthsDown (length_pos_iff.mpr hpart)
    (by rw [length_append]; omega : part.length ≤ min (pre ++ part).length (headerLen + 1))
    hretained
  apply Nat.le_trans (retained_le_possible _ _)
  rw [possibleHeaderStart, hfound, ← hstart]
  exact Nat.sub_le_sub_left hle _

end Retained

-- What is taken off in front of the header of an upload.
structure IsEcho (removed : Bytes) : Prop where
  parts : ∃ echo banner, removed = echo ++ banner ∧ (echo = [] ∨ echo ∈ echoes) ∧
    (banner = [] ∨ banner ∈ banners)

theorem stripSuffix_append (patterns : List Bytes) (data : Bytes) :
    ∃ removed, stripSuffix patterns data ++ removed = data ∧ (removed = [] ∨ removed ∈ patterns) := by
  rw [stripSuffix]
  split
  case h_1 pattern hfound =>
    have hsuffix := find?_some hfound
    obtain ⟨before, rfl⟩ := isSuffixOf_iff_suffix.mp hsuffix
    refine ⟨pattern, ?_, .inr (mem_of_find?_eq_some hfound)⟩
    rw [length_append, Nat.add_sub_cancel, take_left]
  case h_2 => exact ⟨[], append_nil data, .inl rfl⟩

theorem stripRzEcho_append (data : Bytes) :
    ∃ removed, stripRzEcho data ++ removed = data ∧ IsEcho removed := by
  obtain ⟨banner, hbanner, hmem⟩ := stripSuffix_append banners data
  obtain ⟨echo, hecho, hmem'⟩ := stripSuffix_append echoes (stripSuffix banners data)
  refine ⟨echo ++ banner, ?_, ⟨echo, banner, rfl, hmem', hmem⟩⟩
  rw [stripRzEcho, ← append_assoc, hecho, hbanner]

-- Bytes are removed for an upload only.
def Removed (direction : Direction) (removed : Bytes) : Prop :=
  removed = [] ∨ direction = .upload ∧ IsEcho removed

theorem shown_append (direction : Direction) (data : Bytes) :
    ∃ removed, (if direction = .upload then stripRzEcho data else data) ++ removed = data ∧
      Removed direction removed := by
  by_cases hupload : direction = .upload
  case pos =>
    obtain ⟨removed, hdata, hecho⟩ := stripRzEcho_append data
    rw [if_pos hupload]
    exact ⟨removed, hdata, .inr ⟨hupload, hecho⟩⟩
  case neg =>
    rw [if_neg hupload]
    exact ⟨[], append_nil data, .inl rfl⟩

def Result.Accounted : Result → Bytes → Prop
  | .noMatch _, removed => removed = []
  | .detected direction _ _, removed => Removed direction removed

-- The bytes of a result, with those that have been removed.
def Result.bytes (result : Result) (removed : Bytes) : Bytes :=
  match result with
  | .noMatch passthrough => passthrough ++ removed
  | .detected _ passthrough initialBytes => passthrough ++ removed ++ initialBytes

def Event.bytes : Event → Bytes
  | .chunk data _ => data
  | .flush _ => []

namespace Detector

variable {detector : Detector}

theorem feed_of_some (h : detectZmodemStart (detector.pending ++ data) = some (direction, start)) :
    detector.feed data now = (.detected direction
      (if direction = .upload then stripRzEcho ((detector.pending ++ data).take start)
        else (detector.pending ++ data).take start)
      ((detector.pending ++ data).drop start), new) := by
  rw [feed, h]

theorem react_conserves (detector : Detector) (event : Event) :
    ∃ removed, (detector.react event).1.Accounted removed ∧
      (detector.react event).1.bytes removed ++ (detector.react event).2.pending =
        detector.pending ++ event.bytes := by
  cases event
  case chunk data now =>
    cases hstart : detectZmodemStart (detector.pending ++ data)
    case none =>
      refine ⟨[], ?_⟩
      simp [react, feed, hstart, Result.Accounted, Result.bytes, Event.bytes]
    case some found =>
      obtain ⟨direction, start⟩ := found
      obtain ⟨removed, hdata, hremoved⟩ :=
        shown_append direction ((detector.pending ++ data).take start)
      refine ⟨removed, ?_⟩
      rw [react, feed_of_some hstart]
      refine ⟨hremoved, ?_⟩
      rw [Result.bytes, hdata, take_append_drop, new, append_nil, Event.bytes]
  case flush now =>
    refine ⟨[], ?_⟩
    rw [react, flushPendingIfIdle]
    split
    case h_1 => simp [Result.Accounted, Result.bytes, Event.bytes]
    dsimp only
    generalize (if zdle ∈ detector.pending then headerIdleTimeout else asteriskIdleTimeout) = timeout
    split <;> simp [Result.Accounted, Result.bytes, Event.bytes]

theorem run_conserves (detector : Detector) (events : List Event) :
    ∃ removals, List.Forall₂ Result.Accounted (detector.run events).1 removals ∧
      (List.zipWith Result.bytes (detector.run events).1 removals).flatten ++
        (detector.run events).2.pending = detector.pending ++ (events.map Event.bytes).flatten := by
  induction events generalizing detector
  case nil => exact ⟨[], .nil, by simp [run]⟩
  case cons event events ih =>
    obtain ⟨removed, hremoved, hbytes⟩ := detector.react_conserves event
    obtain ⟨removals, hremovals, hlater⟩ := ih (detector.react event).2
    refine ⟨removed :: removals, .cons hremoved hremovals, ?_⟩
    rw [run, zipWith_cons_cons, flatten_cons, append_assoc, hlater,
      ← append_assoc, hbytes, map_cons, flatten_cons, append_assoc]

end Detector

-- Whether the bytes behind those given start a line.
def startsLine (released : Bytes) : Bool :=
  released = [] ∨ endsAtLineStart released

theorem endsAtLineStart_append (h : data ≠ []) (released : Bytes) :
    endsAtLineStart (released ++ data) = endsAtLineStart data := by
  rw [endsAtLineStart, endsAtLineStart, getLast?_append_of_ne_nil released h]

theorem startsLine_of_ne_nil (h : data ≠ []) : startsLine data = endsAtLineStart data := by
  simp [startsLine, h]

-- The first header of a stream, at the start of a line.
structure Announced (before header : Bytes) (direction : Direction) : Prop where
  isHeader : IsHeader header direction
  line : startsLine before = true
  first : ∀ m < before.length, headerAt ((before ++ header).drop m) = none

namespace Announced

variable (h : Announced (released ++ pre) header direction)
include h

theorem first_of_append (hm : m < pre.length) : headerAt ((pre ++ header).drop m) = none := by
  have hfirst := h.first (released.length + m) (by rw [length_append]; omega)
  rwa [append_assoc, drop_length_add_append] at hfirst

theorem detect_eq_none
    (hwindow : window ++ rest = pre ++ header) (hrest : rest ≠ []) :
    detectZmodemStart window = none := by
  have hlength := congrArg List.length hwindow
  rw [length_append, length_append] at hlength
  have hpos := length_pos_iff.mpr hrest
  have hsix := h.isHeader.length_le
  apply Detect.detect_eq_none
  intro m hm
  rcases Nat.lt_trichotomy m pre.length with hlt | heq | hgt
  -- A header in front of it would be there with the rest, too.
  · cases hfound : headerAt (window.drop m)
    case none => rfl
    case some other =>
      have hlong := headerAt_append hfound rest
      rw [← drop_append_of_le_length (Nat.le_of_lt hm), hwindow, h.first_of_append hlt] at hlong
      cases hlong
  · have hpart : window.drop m = header.take (window.length - pre.length) := by
      have htake := congrArg (List.take (window.length - pre.length)) (congrArg (List.drop m) hwindow)
      rw [heq, drop_left, drop_append_of_le_length (by omega),
        take_append_of_le_length (by rw [length_drop]),
        take_of_length_le (by rw [length_drop])] at htake
      rw [heq]
      exact htake
    rw [hpart]
    exact h.isHeader.minimal _ (by omega)
  · apply headerAt_of_short
    rw [length_drop]
    omega

theorem take_retained_prefix
    (hwindow : window ++ rest = pre ++ header) (hrest : rest ≠ []) :
    window.take (retainedPrefixStart window (startsLine released)) <+: pre := by
  rcases append_eq_append_iff.mp hwindow with ⟨missing, rfl, -⟩ | ⟨part, rfl, hheader⟩
  · exact (List.take_prefix _ _).trans (prefix_append _ _)
  · by_cases hpart : part = []
    case pos =>
      rw [hpart, append_nil]
      exact take_prefix _ _
    case neg =>
      have hlength := congrArg List.length hheader
      rw [length_append] at hlength
      have hpos := length_pos_iff.mpr hrest
      have hsix := h.isHeader.length_le
      have hpossible : isPossibleZmodemPrefix part = true := by
        have htake := h.isHeader.possible (show part.length < header.length by omega)
        rwa [hheader, take_left] at htake
      have hline : isLineStart (pre ++ part) pre.length (startsLine released) = true := by
        rw [isLineStart]
        split
        case isTrue hzero =>
          rw [← h.line, eq_nil_of_length_eq_zero hzero, append_nil]
        case isFalse hne =>
          have hpre : pre ≠ [] := fun h => hne (congrArg List.length h)
          rw [take_left, ← endsAtLineStart_append hpre released, ← startsLine_of_ne_nil, h.line]
          exact append_ne_nil_of_right_ne_nil _ hpre
      have hretained := retained_le_of_possible hpart (show part.length ≤ headerLen + 1 by
        rw [headerLen]; omega) hpossible hline
      rw [take_append_of_le_length hretained]
      exact take_prefix _ _

theorem detect_eq_some (after : Bytes) :
    detectZmodemStart (pre ++ header ++ after) = some (direction, pre.length) := by
  have hfive := h.isHeader.le_length
  rw [Detect.detect_eq_some]
  constructor
  · rw [append_assoc, drop_left]
    exact headerAt_append h.isHeader.found after
  · intro m hm
    rw [drop_append_of_le_length (by rw [length_append]; omega), headerAt_of_long]
    · exact h.first_of_append hm
    · rw [length_drop, length_append]
      omega

end Announced

namespace Detector

variable {detector : Detector} {after : Bytes}

-- A detector holds what it has not released, and knows how that ended.
structure Tracks (detector : Detector) (fed released : Bytes) : Prop where
  parts : fed = released ++ detector.pending
  line : detector.pendingStartsAtLineStart = startsLine released

theorem Tracks.new : new.Tracks [] [] :=
  ⟨rfl, rfl⟩

theorem Tracks.feed (h : detector.Tracks fed released)
    (hnone : detectZmodemStart (detector.pending ++ data) = none) :
    (detector.feed data now).1 = .noMatch ((detector.pending ++ data).take
      (retainedPrefixStart (detector.pending ++ data) (startsLine released))) ∧
    (detector.feed data now).2.Tracks (fed ++ data) (released ++ (detector.pending ++ data).take
      (retainedPrefixStart (detector.pending ++ data) (startsLine released))) := by
  rw [Detector.feed, hnone, h.line]
  refine ⟨rfl, ⟨?_, ?_⟩⟩
  · rw [append_assoc, take_append_drop, h.parts, append_assoc]
  · dsimp only
    split
    case isTrue hzero => rw [hzero, take_zero, append_nil]
    case isFalse hne =>
      have hle := retained_le (detector.pending ++ data) (startsLine released)
      have htaken : (detector.pending ++ data).take
          (retainedPrefixStart (detector.pending ++ data) (startsLine released)) ≠ [] := by
        intro hnil
        have hlength := congrArg List.length hnil
        rw [length_take, length_nil] at hlength
        omega
      rw [startsLine_of_ne_nil (append_ne_nil_of_right_ne_nil _ htaken),
        endsAtLineStart_append htaken]

theorem scan_of_noMatch (h : (detector.feed data now).1 = .noMatch passthrough) :
    detector.scan ((data, now) :: chunks) =
      (passthrough ++ ((detector.feed data now).2.scan chunks).1,
        ((detector.feed data now).2.scan chunks).2) := by
  rw [scan]
  generalize detector.feed data now = fed at h
  obtain ⟨result, detector⟩ := fed
  cases h
  rfl

theorem scan_announced (h : Announced before header direction) (chunks : List (Bytes × Nat))
    (htracks : detector.Tracks fed released) (hreleased : released <+: before)
    (hopen : ∃ rest, rest ≠ [] ∧ fed ++ rest = before ++ header)
    (hchunks : fed ++ (chunks.map Prod.fst).flatten = before ++ header ++ after) :
    ∃ shown passthrough removed initialBytes unread,
      detector.scan chunks = (shown, some (direction, passthrough, initialBytes), unread) ∧
      released ++ shown ++ passthrough ++ removed = before ∧ Removed direction removed ∧
      initialBytes ++ (unread.map Prod.fst).flatten = header ++ after := by
  induction chunks generalizing detector fed released
  case nil =>
    obtain ⟨rest, hrest, hfed⟩ := hopen
    rw [map_nil, flatten_nil, append_nil, ← hfed, append_assoc] at hchunks
    exact absurd (append_eq_nil_iff.mp (self_eq_append_right.mp hchunks)).1 hrest
  case cons chunk chunks ih =>
    obtain ⟨data, now⟩ := chunk
    obtain ⟨pre, rfl⟩ := hreleased
    rw [map_cons, flatten_cons, ← append_assoc] at hchunks
    -- The header is complete with this chunk or it is not.
    have hcases : (∃ rest, rest ≠ [] ∧ fed ++ data ++ rest = released ++ pre ++ header) ∨
        ∃ more, fed ++ data = released ++ pre ++ header ++ more ∧
          more ++ (chunks.map Prod.fst).flatten = after := by
      rcases append_eq_append_iff.mp hchunks with ⟨missing, hmissing, hlater⟩ | ⟨more, hmore, hafter⟩
      · by_cases hnil : missing = []
        case pos =>
          subst hnil
          rw [append_nil] at hmissing
          exact .inr ⟨[], by rw [append_nil, hmissing], hlater⟩
        case neg => exact .inl ⟨missing, hnil, hmissing.symm⟩
      · exact .inr ⟨more, hmore, hafter.symm⟩
    rcases hcases with ⟨rest, hrest, hpart⟩ | ⟨more, hmore, hafter⟩
    · have hwindow : detector.pending ++ data ++ rest = pre ++ header := by
        simpa only [htracks.parts, append_assoc, append_cancel_left_eq] using hpart
      obtain ⟨hresult, htracks'⟩ := htracks.feed (h.detect_eq_none hwindow hrest)
      have hprefix := h.take_retained_prefix hwindow hrest
      obtain ⟨shown, passthrough, removed, initialBytes, unread, hscan, hbefore, hlater⟩ :=
        ih htracks' ((prefix_append_right_inj released).mpr hprefix) ⟨rest, hrest, hpart⟩ hchunks
      rw [scan_of_noMatch hresult, hscan]
      refine ⟨_, passthrough, removed, initialBytes, unread, rfl, ?_, hlater⟩
      simpa only [append_assoc] using hbefore
    · have hwindow : detector.pending ++ data = pre ++ header ++ more := by
        simpa only [htracks.parts, append_assoc, append_cancel_left_eq] using hmore
      have hdetect := h.detect_eq_some more
      rw [← hwindow] at hdetect
      obtain ⟨removed, hpre, hremoved⟩ := shown_append direction pre
      rw [scan, feed_of_some hdetect, hwindow, append_assoc, take_left, drop_left]
      refine ⟨[], _, removed, _, chunks, rfl, ?_, hremoved, ?_⟩
      · rw [append_nil, append_assoc, hpre]
      · rw [append_assoc, hafter]

-- No output is lost in any run, and the first header at the start of a line is found wherever the
-- stream is divided.
theorem output_is_conserved_and_header_found :
    (∀ events, ∃ removals, List.Forall₂ Result.Accounted (new.run events).1 removals ∧
      (List.zipWith Result.bytes (new.run events).1 removals).flatten ++ (new.run events).2.pending =
        (events.map Event.bytes).flatten) ∧
    ∀ before header after direction chunks, Announced before header direction →
      (chunks.map Prod.fst).flatten = before ++ header ++ after →
      ∃ shown passthrough removed initialBytes unread,
        new.scan chunks = (shown, some (direction, passthrough, initialBytes), unread) ∧
        shown ++ passthrough ++ removed = before ∧ Removed direction removed ∧
        initialBytes ++ (unread.map Prod.fst).flatten = header ++ after := by
  constructor
  · exact new.run_conserves
  · intro before header after direction chunks h hchunks
    have hheader : before ++ header ≠ [] := by
      apply append_ne_nil_of_right_ne_nil
      apply ne_nil_of_length_pos
      exact Nat.lt_of_lt_of_le (by decide) h.isHeader.le_length
    exact scan_announced h chunks Tracks.new nil_prefix ⟨_, hheader, rfl⟩ hchunks

-- A download that is announced behind a line end, cut behind its first byte.
theorem header_found_behind_line_end :
    ∃ shown passthrough removed initialBytes unread,
      new.scan [([97, 10, 42], 0), ([42, 24, 66, 48, 48, 120], 1)] =
        (shown, some (.download, passthrough, initialBytes), unread) ∧
      shown ++ passthrough ++ removed = [97, 10] ∧ Removed .download removed ∧
      initialBytes ++ (unread.map Prod.fst).flatten = [42, 42, 24, 66, 48, 48, 120] :=
  output_is_conserved_and_header_found.2 [97, 10] [42, 42, 24, 66, 48, 48] [120] .download
    [([97, 10, 42], 0), ([42, 24, 66, 48, 48, 120], 1)]
    ⟨⟨by decide, by decide⟩, by decide, by decide⟩ rfl

-- A header in the middle of a line hides the next one unless it is cut behind its first byte.
theorem header_behind_mid_line_header_depends_on_division :
    startsLine [97, 42, 42, 24, 66, 48, 48, 10] = true ∧
    headerAt [42, 42, 24, 66, 48, 49] = some .upload ∧
    new.scan [([97, 42, 42, 24, 66, 48, 48, 10, 42, 42, 24, 66, 48, 49], 0)] =
      ([], some (.download, [97], [42, 42, 24, 66, 48, 48, 10, 42, 42, 24, 66, 48, 49]), []) ∧
    new.scan [([97, 42], 0), ([42, 24, 66, 48, 48, 10, 42, 42, 24, 66, 48, 49], 0)] =
      ([97, 42], some (.upload, [42, 24, 66, 48, 48, 10], [42, 42, 24, 66, 48, 49]), []) :=
  ⟨rfl, rfl, rfl, rfl⟩

end Detector

end NyaTerm.Zmodem.Detect

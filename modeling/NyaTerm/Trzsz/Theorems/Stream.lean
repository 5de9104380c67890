import NyaTerm.Trzsz.Stream
import NyaTerm.Trzsz.Platforms

open List

namespace NyaTerm.Trzsz.ProtocolStream

open Transducer

-- The buffers of a stream: a line and binary data are never there at the same time.
structure Bounded (stream : ProtocolStream) : Prop where
  line : stream.pendingLine.length ≤ maxProtocolLineLength
  data : stream.binaryData.length + stream.binaryBytesRemaining ≤ stream.binaryLimit
  idle : stream.binaryBytesRemaining = 0 → stream.binaryData = []
  apart : 0 < stream.binaryBytesRemaining → stream.pendingLine = []

theorem bounded_new : new.Bounded where
  line := Nat.zero_le _
  data := Nat.zero_le _
  idle := fun _ => rfl
  apart := fun _ => rfl

variable {stream : ProtocolStream}

namespace Bounded

theorem ofLine (hr : stream.binaryBytesRemaining = 0) (hd : stream.binaryData = [])
    (hl : stream.pendingLine.length ≤ maxProtocolLineLength) : stream.Bounded where
  line := hl
  data := by rw [hr, hd]; exact Nat.zero_le _
  idle := fun _ => hd
  apart := fun h => absurd hr (Nat.ne_of_gt h)

theorem binaryByte (h : stream.Bounded) (hr : 0 < stream.binaryBytesRemaining) :
    (stream.binaryByte byte).state.Bounded := by
  have hdata := h.data
  rw [ProtocolStream.binaryByte]
  split
  case isTrue =>
    refine ⟨h.line, ?_, fun _ => rfl, fun _ => h.apart hr⟩
    change 0 + (stream.binaryBytesRemaining - 1) ≤ stream.binaryLimit
    omega
  case isFalse hmore =>
    refine ⟨h.line, ?_, fun h0 => absurd h0 ?_, fun _ => h.apart hr⟩
    · change (stream.binaryData ++ [byte]).length + (stream.binaryBytesRemaining - 1) ≤ stream.binaryLimit
      rw [length_append, length_singleton]
      omega
    · change ¬ stream.binaryBytesRemaining - 1 = 0
      intro h0
      rw [h0] at hmore
      exact hmore rfl

theorem emitText_state (byte : UInt8) :
    (stream.emitText byte).2.binaryBytesRemaining = stream.binaryBytesRemaining ∧
      (stream.emitText byte).2.binaryData = stream.binaryData := by
  rw [emitText]
  split <;> exact ⟨rfl, rfl⟩

section Lines

variable [Library]

section

variable (hr : stream.binaryBytesRemaining = 0) (hd : stream.binaryData = [])
include hr hd

theorem configure {frame : Frame} (hl : stream.pendingLine = []) :
    (stream.configure frame).binaryBytesRemaining = 0 ∧ (stream.configure frame).binaryData = [] ∧
      (stream.configure frame).pendingLine = [] := by
  rw [ProtocolStream.configure]
  split <;> exact ⟨hr, hd, hl⟩

theorem acceptFrame {frame : Frame} (hl : stream.pendingLine = []) :
    (stream.acceptFrame frame).state.Bounded := by
  obtain ⟨hr, hd, hl⟩ := @configure stream _ hr hd frame hl
  have hzero : (stream.configure frame).Bounded := ofLine hr hd (by rw [hl]; exact Nat.zero_le _)
  rw [ProtocolStream.acceptFrame.eq_def]
  dsimp only
  split
  case h_1 => exact hzero
  case h_2 length _ =>
    split
    case isTrue => exact hzero
    case isFalse hle =>
      refine ⟨hzero.line, ?_, fun _ => hd, fun _ => hl⟩
      change (stream.configure frame).binaryData.length + length.toNat ≤
        (stream.configure frame).binaryLimit
      rw [hd, length_nil]
      omega

theorem endLine : (stream.endLine lossy).state.Bounded := by
  rw [ProtocolStream.endLine.eq_def]
  dsimp only
  split
  case h_1 => exact ofLine hr hd (Nat.zero_le _)
  case h_2 =>
    exact @acceptFrame { stream with pendingLine := [], textStreaming := false } _ hr hd _ rfl

theorem lineByte : (stream.lineByte lossy byte).state.Bounded := by
  obtain ⟨her, hed⟩ :=
    @emitText_state { stream with pendingLine := stream.pendingLine ++ [byte] } byte
  have hzero := her.trans hr
  have hnil := hed.trans hd
  rw [ProtocolStream.lineByte]
  split
  case isTrue => exact ofLine hzero hnil (Nat.zero_le _)
  case isFalse hle =>
    split
    case isTrue => exact ofLine hzero hnil (Nat.le_of_not_lt hle)
    case isFalse => exact endLine hzero hnil

end

theorem filterByte (byte : UInt8) (h : stream.Bounded) : (stream.filterByte lossy byte).state.Bounded := by
  rw [ProtocolStream.filterByte]
  split
  case isTrue hr => exact h.binaryByte hr
  case isFalse hr =>
    have hzero : stream.binaryBytesRemaining = 0 := Nat.eq_zero_of_not_pos hr
    split
    case isTrue => exact h
    case isFalse => exact lineByte hzero (h.idle hzero)

theorem after (h : stream.Bounded) : (stream.after lossy chunks).Bounded := by
  induction chunks generalizing stream
  case nil => exact h
  case cons chunk chunks ih =>
    exact ih (run_invariant (fun _ byte hs => filterByte byte hs) chunk h)

end Lines

-- A byte more than the buffers hold fits into the limits, so they do while it is read.
theorem size (h : stream.Bounded) :
    stream.pendingLine.length + stream.binaryData.length + 1 ≤
      maxProtocolLineLength + stream.binaryLimit := by
  have hline := h.line
  have hdata := h.data
  rcases Nat.eq_zero_or_pos stream.binaryBytesRemaining with hr | hr
  · have hlimit : 1 ≤ stream.binaryLimit := by
      rw [binaryLimit]
      split <;> decide
    rw [h.idle hr, length_nil]
    omega
  · rw [h.apart hr, length_nil]
    omega

end Bounded

section Text

variable [Library]

def chunkFrame (last : Bool) (bytes : Bytes) : Filtered :=
  .frame ⟨"DATA", .dataChunk bytes last⟩

-- Between two lines, where text data are read.
structure AtText (stream : ProtocolStream) : Prop where
  pending : stream.pendingLine = []
  remaining : stream.binaryBytesRemaining = 0
  fresh : stream.textStreaming = false
  modern : stream.modern = true
  text : stream.binary = false

-- A line of text data, with what has been read of it.
inductive TextLine (stream : ProtocolStream) : Bytes → List Filtered → ProtocolStream → Prop
  | short {read : Bytes} : dataStart <+: read → read.length < uploadDataChunkSize + 8 →
    TextLine stream read [] { stream with pendingLine := read }
  | long {read pending : Bytes} {chunks : List Bytes} : uploadDataChunkSize + 8 ≤ read.length →
    chunks.flatten ++ pending = read.drop 6 → 2 ≤ pending.length →
    pending.length < uploadDataChunkSize + 8 →
    TextLine stream read (chunks.map (chunkFrame false))
      { stream with pendingLine := pending, textStreaming := true }

-- In a line, a byte that does not end it is added to what is pending.
def InLine (stream : ProtocolStream) (byte : UInt8) : Prop :=
  stream.pendingLine ≠ [] ∨ stream.textStreaming = true ∨ byte = hash

theorem filterByte_line {byte : UInt8} (hr : stream.binaryBytesRemaining = 0) (hl : stream.InLine byte) :
    stream.filterByte lossy byte = stream.lineByte lossy byte := by
  rw [filterByte, if_neg (by rw [hr]; exact Nat.lt_irrefl 0), if_neg]
  rw [Bool.and_eq_true, Bool.and_eq_true, List.isEmpty_iff, Bool.not_eq_true', decide_eq_true_eq]
  rintro ⟨⟨hp, ht⟩, hb⟩
  rcases hl with h | h | h
  · exact h hp
  · rw [ht] at h
    cases h
  · exact hb h

omit [Library] in
theorem emitText_short (h : stream.pendingLine.length < uploadDataChunkSize + 8) :
    stream.emitText byte = ([], stream) := by
  rw [emitText]
  rw [if_neg]
  rw [Bool.and_eq_true, decide_eq_true_eq]
  exact fun hc => Nat.not_le.mpr h hc.2

omit [Library] in
theorem short_lt_limit (h : n < uploadDataChunkSize + 8) : ¬ maxProtocolLineLength < n := by
  rw [uploadDataChunkSize] at h
  rw [maxProtocolLineLength]
  omega

theorem filterByte_short {byte : UInt8} (hr : stream.binaryBytesRemaining = 0) (hl : stream.InLine byte)
    (hn : byte ≠ newline) (h : stream.pendingLine.length + 1 < uploadDataChunkSize + 8) :
    stream.filterByte lossy byte =
      ⟨[], { stream with pendingLine := stream.pendingLine ++ [byte] }, false⟩ := by
  have hlen : (stream.pendingLine ++ [byte]).length < uploadDataChunkSize + 8 := by
    rw [length_append]
    exact h
  rw [filterByte_line hr hl, lineByte]
  rw [emitText_short hlen, if_neg (short_lt_limit hlen), if_pos hn]

theorem run_short {bytes : Bytes} (hr : stream.binaryBytesRemaining = 0)
    (hl : ∀ byte ∈ bytes.head?, stream.InLine byte) (hn : newline ∉ bytes)
    (h : stream.pendingLine.length + bytes.length < uploadDataChunkSize + 8) :
    stream.filterBytes lossy bytes =
      ⟨[], { stream with pendingLine := stream.pendingLine ++ bytes }, false⟩ := by
  induction bytes generalizing stream
  case nil =>
    rw [append_nil]
    rfl
  case cons byte bytes ih =>
    rw [length_cons] at h
    have hstep := @filterByte_short stream _ lossy byte hr (hl byte rfl)
      (fun h0 => hn (h0 ▸ mem_cons_self)) (by omega)
    have hlater := @ih { stream with pendingLine := stream.pendingLine ++ [byte] } hr
      (fun _ _ => .inl (append_ne_nil_of_right_ne_nil _ (cons_ne_nil _ _)))
      (fun h0 => hn (mem_cons_of_mem _ h0))
      (by rw [length_append, length_singleton]; omega)
    rw [filterBytes] at hlater ⊢
    rw [run, hstep]
    rw [if_neg Bool.false_ne_true, hlater, append_assoc]
    rfl

theorem textLine_start (h : stream.AtText) :
    stream.filterBytes lossy dataStart = ⟨[], { stream with pendingLine := dataStart }, false⟩ := by
  have hrun := @run_short stream _ lossy dataStart h.remaining
    (fun byte hb => .inr (.inr (Option.some.inj hb).symm)) (by decide)
    (by rw [h.pending, uploadDataChunkSize]; decide)
  rw [h.pending, nil_append] at hrun
  exact hrun

omit [Library] in
theorem emitText_long {byte : UInt8} {read : Bytes} {chunks : List Bytes} (hm : stream.modern = true)
    (ht : stream.binary = false) (hn : byte ≠ newline)
    (hlong : uploadDataChunkSize + 8 ≤ stream.pendingLine.length)
    (hstart : stream.textStreaming = true ∨ dataStart <+: stream.pendingLine)
    (hread : chunks.flatten ++ stream.pendingLine.drop (if stream.textStreaming then 0 else 6) =
      read.drop 6) :
    ∃ chunk, (stream.emitText byte).1 = [chunkFrame false chunk] ∧
      (stream.emitText byte).2 = { stream with
        pendingLine := stream.pendingLine.drop (stream.pendingLine.length - 2), textStreaming := true } ∧
      (chunks ++ [chunk]).flatten ++ stream.pendingLine.drop (stream.pendingLine.length - 2) =
        read.drop 6 := by
  have htext : (stream.modern && !stream.binary &&
      (stream.textStreaming || dataStart.isPrefixOf stream.pendingLine)) = true := by
    rw [hm, ht, Bool.not_false, Bool.true_and, Bool.true_and, Bool.or_eq_true, isPrefixOf_iff_prefix]
    exact hstart
  rw [emitText]
  rw [if_pos (by rw [htext, decide_eq_true hn, decide_eq_true hlong]; rfl)]
  refine ⟨_, rfl, rfl, ?_⟩
  rw [flatten_append, flatten_singleton, append_assoc, ← hread]
  congr 1
  generalize hcut : (if stream.textStreaming = true then 0 else 6) = start
  have hle : start ≤ (stream.pendingLine.take (stream.pendingLine.length - 2)).length := by
    rw [length_take]
    split at hcut <;> omega
  rw [← drop_append_of_le_length hle, take_append_drop]

theorem filterByte_long {byte : UInt8} {read : Bytes} {chunks : List Bytes}
    (hr : stream.binaryBytesRemaining = 0) (hl : stream.InLine byte) (hm : stream.modern = true)
    (ht : stream.binary = false) (hn : byte ≠ newline)
    (hlong : uploadDataChunkSize + 8 ≤ stream.pendingLine.length + 1)
    (hstart : stream.textStreaming = true ∨ dataStart <+: stream.pendingLine ++ [byte])
    (hread : chunks.flatten ++
      (stream.pendingLine ++ [byte]).drop (if stream.textStreaming then 0 else 6) = read.drop 6) :
    ∃ chunk kept, stream.filterByte lossy byte =
        ⟨[chunkFrame false chunk], { stream with pendingLine := kept, textStreaming := true }, false⟩ ∧
      kept.length = 2 ∧ (chunks ++ [chunk]).flatten ++ kept = read.drop 6 := by
  have hlen : uploadDataChunkSize + 8 ≤ (stream.pendingLine ++ [byte]).length := by
    rw [length_append]
    exact hlong
  obtain ⟨chunk, ho, hs, hf⟩ := @emitText_long
    { stream with pendingLine := stream.pendingLine ++ [byte] } byte read chunks hm ht hn hlen hstart hread
  have htwo : ((stream.pendingLine ++ [byte]).drop
      ((stream.pendingLine ++ [byte]).length - 2)).length = 2 := by
    rw [length_drop]
    omega
  refine ⟨chunk, _, ?_, htwo, hf⟩
  rw [filterByte_line hr hl, lineByte]
  rw [ho, hs]
  rw [htwo, if_neg (by decide), if_pos hn]

theorem textLine_step (h : stream.AtText) {read : Bytes} (hline : TextLine stream read written s)
    (hn : byte ≠ newline) :
    (s.filterByte lossy byte).stopped = false ∧
      TextLine stream (read ++ [byte]) (written ++ (s.filterByte lossy byte).output)
        (s.filterByte lossy byte).state := by
  cases hline
  case short hp hlen =>
    have hin : InLine { stream with pendingLine := read } byte :=
      .inl (by rintro rfl; exact absurd hp (by decide))
    have hp' : dataStart <+: read ++ [byte] := hp.trans (prefix_append _ _)
    rcases Nat.lt_or_ge (read.length + 1) (uploadDataChunkSize + 8) with hlt | hge
    · rw [@filterByte_short { stream with pendingLine := read } _ lossy byte h.remaining hin hn hlt]
      exact ⟨rfl, .short hp' (by rw [length_append]; exact hlt)⟩
    · obtain ⟨chunk, kept, hb, htwo, hf⟩ := @filterByte_long { stream with pendingLine := read } _ lossy byte
        (read ++ [byte]) [] h.remaining hin h.modern h.text hn hge (.inr hp')
        (by dsimp only; rw [h.fresh]; rfl)
      rw [hb]
      refine ⟨rfl, @TextLine.long stream _ kept [chunk] ?_ hf (by omega) ?_⟩
      · rw [length_append]
        exact hge
      · rw [htwo, uploadDataChunkSize]
        decide
  case long pending chunks hlong hflat htwo hlen =>
    have hin : InLine { stream with pendingLine := pending, textStreaming := true } byte := .inr (.inl rfl)
    have hread : chunks.flatten ++ (pending ++ [byte]) = (read ++ [byte]).drop 6 := by
      rw [← append_assoc, hflat]
      exact (drop_append_of_le_length (by rw [uploadDataChunkSize] at hlong; omega)).symm
    have hlong' : uploadDataChunkSize + 8 ≤ (read ++ [byte]).length := by
      rw [length_append]
      omega
    rcases Nat.lt_or_ge (pending.length + 1) (uploadDataChunkSize + 8) with hlt | hge
    · rw [@filterByte_short { stream with pendingLine := pending, textStreaming := true } _ lossy byte
        h.remaining hin hn hlt]
      refine ⟨rfl, ?_⟩
      rw [append_nil]
      refine .long hlong' hread (Nat.le_trans htwo ?_) (by rw [length_append]; exact hlt)
      rw [length_append]
      exact Nat.le_add_right _ _
    · obtain ⟨chunk, kept, hb, hk, hf⟩ := @filterByte_long
        { stream with pendingLine := pending, textStreaming := true } _ lossy byte (read ++ [byte]) chunks
        h.remaining hin h.modern h.text hn hge (.inl rfl) hread
      rw [hb]
      refine ⟨rfl, ?_⟩
      have hw : chunks.map (chunkFrame false) ++ [chunkFrame false chunk] =
          (chunks ++ [chunk]).map (chunkFrame false) := by
        rw [map_append]
        rfl
      rw [hw]
      refine .long hlong' hf (by omega) ?_
      rw [hk, uploadDataChunkSize]
      decide

omit [Library] in
theorem trimEnd_append (h : line ≠ []) :
    trimEnd (front ++ line) endings = front ++ trimEnd line endings := by
  have hlast : (front ++ line).getLast? = line.getLast? := getLast?_append_of_ne_nil front h
  rw [trimEnd, trimEnd, hlast]
  split
  case isTrue => exact dropLast_append_of_ne_nil h
  case isFalse => rfl

omit [Library] in
theorem trimProtocolLineEnding_newline (line : Bytes) :
    trimProtocolLineEnding (line ++ [newline]) = trimEnd line [13, 33] := by
  have hnew : trimEnd (line ++ [newline]) [newline] = line := by
    rw [trimEnd_append (cons_ne_nil _ _)]
    exact append_nil line
  rw [trimProtocolLineEnding, hnew]

-- What a line of text data is turned into.
inductive TextFrames (lossy : Bytes → String) (line : Bytes) : List Filtered → Prop
  | whole : line.length < uploadDataChunkSize + 8 →
    TextFrames lossy line
      [.frame ⟨"DATA", .raw (lossy ((trimProtocolLineEnding (line ++ [newline])).drop 6))⟩]
  | chunks {chunks : List Bytes} {last : Bytes} : uploadDataChunkSize + 8 ≤ line.length →
    chunks.flatten ++ last = (trimProtocolLineEnding (line ++ [newline])).drop 6 →
    TextFrames lossy line (chunks.map (chunkFrame false) ++ [chunkFrame true last])

omit [Library] in
theorem emitText_newline : stream.emitText newline = ([], stream) := by
  rw [emitText]
  rw [if_neg]
  rw [Bool.and_eq_true, Bool.and_eq_true, decide_eq_true_eq]
  exact fun hc => hc.1.2 rfl

theorem acceptFrame_plain (hc : parseConfigFrame frame = none) (hd : dataLength frame = none) :
    stream.acceptFrame frame = ⟨[.frame frame], stream, false⟩ := by
  have hs : stream.configure frame = stream := by rw [configure, hc]
  rw [acceptFrame.eq_def, hs, hd]

theorem filterByte_newline {line : Bytes} {streaming : Bool} {frame : Frame} (h : stream.AtText)
    (hl : InLine { stream with pendingLine := line, textStreaming := streaming } newline)
    (hlen : line.length < uploadDataChunkSize + 8)
    (hf : lineFrame { stream with pendingLine := line ++ [newline], textStreaming := streaming } lossy
      (line ++ [newline]) = some frame)
    (hc : parseConfigFrame frame = none) (hd : dataLength frame = none) :
    filterByte { stream with pendingLine := line, textStreaming := streaming } lossy newline =
      ⟨[.frame frame], stream, false⟩ := by
  have hlimit : ¬ maxProtocolLineLength < (line ++ [newline]).length := by
    rw [length_append, length_singleton, maxProtocolLineLength]
    rw [uploadDataChunkSize] at hlen
    omega
  have hstream : { stream with pendingLine := [], textStreaming := false } = stream := by
    rw [← h.pending, ← h.fresh]
  rw [@filterByte_line { stream with pendingLine := line, textStreaming := streaming } _ lossy newline
    h.remaining hl, lineByte]
  dsimp only
  rw [emitText_newline, if_neg hlimit, if_neg (not_not.mpr rfl), endLine.eq_def]
  dsimp only
  rw [hf]
  dsimp only
  rw [hstream, acceptFrame_plain hc hd, nil_append]

theorem textLine_end (h : stream.AtText) {read : Bytes} {written : List Filtered} {s : ProtocolStream}
    (hline : TextLine stream read written s) :
    (s.filterByte lossy newline).stopped = false ∧ (s.filterByte lossy newline).state = stream ∧
      TextFrames lossy read (written ++ (s.filterByte lossy newline).output) := by
  cases hline
  case short hp hlen =>
    have hin : InLine { stream with pendingLine := read } newline :=
      .inl (by rintro rfl; exact absurd hp (by decide))
    have hp' : dataStart.isPrefixOf (read ++ [newline]) = true :=
      isPrefixOf_iff_prefix.mpr (hp.trans (prefix_append _ _))
    have hf : lineFrame { stream with pendingLine := read ++ [newline] } lossy (read ++ [newline]) =
        some ⟨"DATA", .raw (lossy ((trimProtocolLineEnding (read ++ [newline])).drop 6))⟩ := by
      rw [lineFrame]
      rw [h.fresh, h.modern, h.text, hp']
      rfl
    rw [@filterByte_newline stream _ lossy read stream.textStreaming _ h hin hlen hf rfl rfl]
    exact ⟨rfl, rfl, .whole hlen⟩
  case long pending chunks hlong hflat htwo hlen =>
    have hne : pending ≠ [] := ne_nil_of_length_pos (by omega)
    rw [@filterByte_newline stream _ lossy pending true
      ⟨"DATA", .dataChunk (trimProtocolLineEnding (pending ++ [newline])) true⟩ h (.inr (.inl rfl)) hlen rfl
      rfl rfl]
    refine ⟨rfl, rfl, .chunks hlong ?_⟩
    have hsplit : read = (read.take 6 ++ chunks.flatten) ++ pending := by
      rw [append_assoc, hflat, take_append_drop]
    have hsix : (read.take 6).length = 6 := by
      rw [length_take]
      omega
    rw [trimProtocolLineEnding_newline, trimProtocolLineEnding_newline]
    conv => rhs; rw [hsplit]
    rw [trimEnd_append hne, append_assoc]
    exact (List.drop_left' hsix).symm

theorem filterBytes_text (h : stream.AtText) (hn : newline ∉ body) :
    (stream.filterBytes lossy (dataStart ++ body ++ [newline])).stopped = false ∧
      (stream.filterBytes lossy (dataStart ++ body ++ [newline])).state = stream ∧
      TextFrames lossy (dataStart ++ body)
        (stream.filterBytes lossy (dataStart ++ body ++ [newline])).output := by
  have hstart := @textLine_start stream _ lossy h
  have hline : TextLine stream dataStart [] { stream with pendingLine := dataStart } :=
    .short (prefix_refl _) (by rw [uploadDataChunkSize]; decide)
  have hbody : (run (filterByte · lossy) { stream with pendingLine := dataStart } body).stopped =
        false ∧
      TextLine stream (dataStart ++ body)
        ([] ++ (run (filterByte · lossy) { stream with pendingLine := dataStart } body).output)
        (run (filterByte · lossy) { stream with pendingLine := dataStart } body).state :=
    run_relation (fun hl hb => textLine_step h hl hb) (fun b hb h0 => hn (h0 ▸ hb)) hline
  obtain ⟨hs, hread⟩ := hbody
  obtain ⟨he, hstate, hframes⟩ := @textLine_end stream _ lossy h _ _ _ hread
  rw [filterBytes] at hstart ⊢
  rw [append_assoc, run_append (by rw [hstart]), hstart]
  dsimp only
  rw [run_append hs, run]
  dsimp only
  rw [if_neg (by rw [he]; decide), run, append_nil]
  exact ⟨rfl, hstate, hframes⟩

end Text

-- The stream does not depend on how its input is divided, hands lines of text data over as they are and
-- keeps to its limits.
theorem protocol_stream_is_exact [Library] (lossy : Bytes → String) :
    (∀ (stream : ProtocolStream) (chunks chunks' : List Bytes), chunks.flatten = chunks'.flatten →
      stream.filterChunks lossy chunks = stream.filterChunks lossy chunks') ∧
    (∀ (stream : ProtocolStream) (body : Bytes), stream.AtText → newline ∉ body →
      (stream.filterBytes lossy (dataStart ++ body ++ [newline])).stopped = false ∧
        (stream.filterBytes lossy (dataStart ++ body ++ [newline])).state = stream ∧
        TextFrames lossy (dataStart ++ body)
          (stream.filterBytes lossy (dataStart ++ body ++ [newline])).output) ∧
    ∀ chunks : List Bytes,
      (new.after lossy chunks).pendingLine.length + (new.after lossy chunks).binaryData.length + 1 ≤
        maxProtocolLineLength + (new.after lossy chunks).binaryLimit := by
  refine ⟨?_, ?_, ?_⟩
  · intro stream chunks chunks' h
    rw [filterChunks, filterChunks, Transducer.feed_eq_run, Transducer.feed_eq_run, h]
  · exact fun stream body h hn => filterBytes_text h hn
  · exact fun chunks => (bounded_new.after).size

namespace Sample

local instance bare : Library := Trzsz.Sample.plainLibrary

-- A stream for which text data have been negotiated.
def textual : ProtocolStream :=
  { new with modern := true }

-- A line that is longer than a chunk.
theorem protocol_stream_is_exact_line :
    textual.AtText ∧
      TextFrames asciiText (dataStart ++ replicate 300000 97)
        (textual.filterBytes asciiText (dataStart ++ replicate 300000 97 ++ [newline])).output := by
  have ht : textual.AtText := ⟨rfl, rfl, rfl, rfl, rfl⟩
  have hn : newline ∉ replicate 300000 97 := fun h => absurd (eq_of_mem_replicate h) (by decide)
  exact ⟨ht, ((protocol_stream_is_exact asciiText).2.1 textual _ ht hn).2.2⟩

end Sample

end NyaTerm.Trzsz.ProtocolStream

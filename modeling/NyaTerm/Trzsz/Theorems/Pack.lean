import NyaTerm.Lib.Fallible
import NyaTerm.Trzsz.Pack
import NyaTerm.Trzsz.Platforms
import NyaTerm.Trzsz.Theorems.Archive

open List

namespace NyaTerm.Trzsz.Archive

variable [ArchiveWriter]

-- The line of a header, with its end.
def headerLine (source : UploadSource) : List UInt8 :=
  ArchiveWriter.encodeString (ArchiveWriter.writeSource source) ++ [newline]

variable {entries : List Entry}

section Entries

variable {entry : Entry} {source : UploadSource}

theorem headerLine_ne_nil : headerLine source ≠ [] :=
  append_ne_nil_of_right_ne_nil _ (cons_ne_nil _ _)

section

variable (h : entry.Exact source)
include h

omit [ArchiveWriter] in
theorem Entry.Exact.isDir : entry.isDir = source.isDir := by
  simp [Entry.isDir, h.metadata]

theorem Entry.Exact.bytes :
    entry.bytes = headerLine source ++ if source.isDir then [] else entry.content := by
  simp [Entry.bytes, h.isDir, h.metadata, headerLine]

theorem Entry.Exact.header : Archive.header entry = .ok (headerLine source) := by
  rw [Archive.header, h.metadata]
  rfl

end

theorem stream_cons : stream (entry :: entries) = entry.bytes ++ stream entries :=
  flatMap_cons

end Entries

omit [ArchiveWriter] in
theorem checkedAdd_eq (h : checkedAdd a b = some c) : c = a + b := by
  obtain ⟨-, ⟨⟩⟩ := Option.ite_none_right_eq_some.mp h
  rfl

theorem addSize_eq (he : ∃ source, entry.Exact source)
    (h : addSize size entry = .ok size') : size' = size + entry.bytes.length := by
  obtain ⟨source, he⟩ := he
  rw [addSize, he.header] at h
  dsimp only [Except.bind] at h
  split at h
  case h_1 => cases h
  case h_2 sum hs =>
    obtain ⟨first, hf, hl⟩ := Option.bind_eq_some_iff.mp hs
    rw [← Except.ok.inj h, checkedAdd_eq hl, checkedAdd_eq hf, he.bytes, he.isDir, length_append,
      he.size]
    cases hd : source.isDir
    case true => simp
    have hc := he.content hd
    simp only [Bool.false_eq_true, if_false]
    omega

theorem foldlM_addSize
    (he : ∀ entry ∈ entries, ∃ source, entry.Exact source)
    (h : entries.foldlM addSize size = .ok size') : size' = size + (stream entries).length := by
  induction entries generalizing size
  case nil =>
    cases h
    simp [stream]
  case cons entry entries ih =>
    rw [foldlM_cons, Fallible.bind_eq_ok] at h
    obtain ⟨next, hs, h⟩ := h
    have hn := addSize_eq (he entry mem_cons_self) hs
    rw [ih (fun e hm => he e (mem_cons_of_mem _ hm)) h, hn, stream, stream, flatMap_cons,
      length_append]
    omega

-- An archive announces the sum of the sizes of its entries.
def Announces (packed : Packed) : Prop :=
  ∀ root entries, packed = .archive root entries →
    ∃ source, root.source = some source ∧ source.archive = true ∧ source.size = root.size ∧
      entries.foldlM addSize 0 = .ok root.size

theorem announces_plain (entry : Entry) : Announces (.plain entry) :=
  nofun

theorem packGroup_announces (hp : ∀ p ∈ plain, Announces p) (h : packGroup plain group = .ok packed) :
    ∀ p ∈ packed, Announces p := by
  rw [packGroup] at h
  split at h
  case h_1 =>
    cases h
    exact hp
  case h_2 root entries _ =>
    split at h
    case isTrue hdir =>
      cases hs : entries.foldlM addSize 0 <;> rw [hs] at h <;> cases h
      rintro p hm
      obtain hm | rfl := mem_append.mp hm |>.imp_right mem_singleton.mp
      · exact hp p hm
      · rintro _ _ ⟨⟩
        obtain ⟨source, hsource, -⟩ := (Option.any_eq_true _ _).mp hdir.1
        exact ⟨{ source with archive := true, size := _ }, by rw [hsource]; rfl, rfl, rfl, hs⟩
    case isFalse =>
      cases h
      simp only [mem_append, mem_map, mem_singleton]
      rintro p ((hm | ⟨entry, -, rfl⟩) | rfl)
      · exact hp p hm
      · exact announces_plain entry
      · exact announces_plain root

theorem addEntry_plain (h : ∀ p ∈ state.2, Announces p) : ∀ p ∈ (addEntry state entry).2, Announces p := by
  rw [addEntry]
  split
  case h_1 => exact h
  case h_2 => exact forall_mem_append.mpr ⟨h, forall_mem_singleton.mpr (announces_plain entry)⟩

theorem foldl_addEntry_plain
    (h : ∀ p ∈ state.2, Announces p) : ∀ p ∈ (entries.foldl addEntry state).2, Announces p := by
  induction entries generalizing state
  case nil => exact h
  case cons entry entries ih => exact ih (addEntry_plain h)

theorem pack_announces (h : pack entries = .ok packed) : ∀ p ∈ packed, Announces p :=
  Fallible.foldlM_invariant (fun _ _ _ hp hg => packGroup_announces hp hg)
    (foldl_addEntry_plain (fun _ hm => (by cases hm))) h

namespace Reader

-- What is still to be read of the file that is open.
def unread (reader : Reader) : List UInt8 :=
  reader.payload.elim [] (·.1)

-- What a reader still produces.
def left (reader : Reader) : List UInt8 :=
  reader.header ++ reader.unread ++ stream reader.entries

structure Exact (reader : Reader) : Prop where
  entries : ∀ entry ∈ reader.entries, ∃ source, entry.Exact source
  payload : ∀ file ∈ reader.payload, file.2 = file.1.length

variable {reader : Reader} {wanted : Nat}

theorem readEntry_exact (h : reader.Exact) (hw : 0 < wanted) (hh : reader.header = [])
    (hu : reader.unread = []) :
    ∃ bytes next, reader.readEntry wanted = .ok (bytes, next) ∧ next.Exact ∧
      bytes ++ next.left = reader.left ∧ (bytes = [] → reader.left = []) := by
  obtain ⟨entries, header, payload⟩ := reader
  obtain rfl : header = [] := hh
  have hleft : left ⟨entries, [], payload⟩ = stream entries := by
    rw [left, hu]
    rfl
  rw [hleft]
  cases entries
  case nil => exact ⟨[], ⟨[], [], none⟩, rfl, ⟨h.entries, nofun⟩, rfl, fun _ => rfl⟩
  case cons entry entries =>
    obtain ⟨source, he⟩ := h.entries entry mem_cons_self
    have hread : readEntry ⟨entry :: entries, [], payload⟩ wanted =
        .ok ((headerLine source).take wanted, ⟨entries, (headerLine source).drop wanted,
          if source.isDir then none else some (entry.content, entry.size)⟩) := by
      simp [readEntry, he.header, he.isDir]
      rfl
    refine ⟨_, _, hread, ⟨fun e hm => h.entries e (mem_cons_of_mem _ hm), ?_⟩, ?_, ?_⟩
    · intro file hf
      obtain ⟨hd, ⟨⟩⟩ := Option.ite_none_left_eq_some.mp hf
      rw [he.size, he.content (Bool.eq_false_iff.mpr hd)]
    · rw [left, unread, stream_cons, he.bytes, ← append_assoc, ← append_assoc,
        take_append_drop]
      split <;> rfl
    · intro h0
      exact absurd ((take_eq_nil_iff.mp h0).resolve_left (Nat.ne_of_gt hw)) headerLine_ne_nil

theorem read_exact (h : reader.Exact) (hw : 0 < wanted) :
    ∃ bytes next, reader.read wanted ready = .ok (bytes, next) ∧ next.Exact ∧
      bytes ++ next.left = reader.left ∧ (bytes = [] → reader.left = []) := by
  rw [read, if_neg (Nat.ne_of_gt hw)]
  split
  case isTrue hh =>
    refine ⟨_, _, rfl, ⟨h.entries, h.payload⟩, ?_, ?_⟩
    · simp [left, unread, ← append_assoc]
    · intro h0
      exact absurd ((take_eq_nil_iff.mp h0).resolve_left (Nat.ne_of_gt hw)) hh
  case isFalse hh =>
    have hnil : reader.header = [] := not_not.mp hh
    split
    case h_1 hp => exact readEntry_exact h hw hnil (by rw [unread, hp]; rfl)
    case h_2 content remaining hp =>
      have hr : remaining = content.length := h.payload _ hp
      split
      case isTrue hpos =>
        have hlen : 0 < (content.take (min (max 1 ready) (min wanted remaining.toNat))).length := by
          rw [length_take]
          omega
        have hne := ne_nil_of_length_pos hlen
        rw [if_neg hne]
        refine ⟨_, _, rfl, ⟨h.entries, ?_⟩, ?_, fun h0 => absurd h0 hne⟩
        · intro file hf
          cases hf
          rw [hr, length_drop, length_take]
          omega
        · have hcontent := prefix_iff_eq_append.mp
            (List.take_prefix (min (max 1 ready) (min wanted remaining.toNat)) content)
          rw [left, left, unread, unread, hnil, hp]
          simp only [Option.elim, nil_append, ← append_assoc, hcontent]
      case isFalse hpos =>
        have hc : content = [] := eq_nil_of_length_eq_zero (by omega)
        exact readEntry_exact h hw hnil (by rw [unread, hp]; exact hc)

theorem drain_exact (h : reader.Exact) (hb : ∀ buffer ∈ buffers, 0 < buffer.1) :
    ∃ bytes next, reader.drain buffers = .ok (bytes, next) ∧ bytes ++ next.left = reader.left ∧
      (buffers.length ≤ bytes.length ∨ next.left = []) := by
  induction buffers generalizing reader
  case nil => exact ⟨[], reader, rfl, rfl, .inl (Nat.le_refl _)⟩
  case cons buffer buffers ih =>
    obtain ⟨first, next, hr, he, hl, hend⟩ :=
      @read_exact _ reader buffer.1 buffer.2 h (hb buffer mem_cons_self)
    obtain ⟨bytes, last, hd, hleft, hcount⟩ := ih he (fun b hm => hb b (mem_cons_of_mem _ hm))
    refine ⟨first ++ bytes, last, ?_, ?_, ?_⟩
    · simp [drain, hr, Except.bind, hd, Except.map]
    · rw [append_assoc, hleft, hl]
    · rcases eq_or_ne first [] with h0 | h0
      · have hnil := hend h0
        rw [← hl, ← hleft, append_eq_nil_iff, append_eq_nil_iff] at hnil
        exact .inr hnil.2.2
      · have hpos := length_pos_iff.mpr h0
        rw [length_append, length_cons]
        exact hcount.imp_left (fun hc => by omega)

end Reader

section Receive

variable {root : SourceFile}

-- An entry that arrives as it is sent.
structure Sent (root : SourceFile) (entry : Entry) (source : UploadSource) : Prop where
  exact : entry.Exact source
  readable : Entry.Readable root source

-- A receiver, what it has gathered, the entries that are not complete and the bytes of them that are
-- still to come.
inductive Awaits (root : SourceFile) (done : List (Bool × List String × List UInt8)) :
    Receiver → Gathered → List Entry → List UInt8 → Prop
  | idle : Awaits root done ⟨root, [], none⟩ ⟨done, none⟩ [] []
  | header {entry : Entry} {source : UploadSource} {entries : List Entry} {read rest : List UInt8} :
    Sent root entry source → read ++ rest = headerLine source → rest ≠ [] →
    Awaits root done ⟨root, read, none⟩ ⟨done, none⟩ (entry :: entries)
      (rest ++ (if source.isDir then [] else entry.content) ++ stream entries)
  | member {entry : Entry} {source : UploadSource} {entries : List Entry} {received : Nat}
    {pending : received < source.file.size} : Sent root entry source → source.isDir = false →
    Awaits root done ⟨root, [], some ⟨source.file, received, pending⟩⟩
      ⟨done, some (source.pathName, entry.content.take received)⟩ (entry :: entries)
      (entry.content.drop received ++ stream entries)

theorem readHeader_sent (h : Sent root entry source) :
    Receiver.readHeader root (ArchiveWriter.encodeString (ArchiveWriter.writeSource source)) =
      .ok source.file := by
  have hr := h.readable
  obtain ⟨json, hj, hrest⟩ := Option.bind_eq_some_iff.mp hr.decoded
  obtain ⟨text, ht, hread⟩ := Option.bind_eq_some_iff.mp hrest
  have hparse : parseSourceFile text = some source.file := by
    rw [parseSourceFile, hread, Option.filter_some, if_pos hr.valid]
  rw [Receiver.readHeader, hj]
  dsimp only
  rw [ht]
  dsimp only
  rw [hparse]
  dsimp only
  rw [if_neg]
  have hsize : 0 ≤ source.file.size := (of_decide_eq_true hr.valid).2.2.1
  rintro (h | h | h | h | h)
  · rw [UploadSource.file, hr.plain] at h
    cases h
  · exact h hr.pathId
  · exact Nat.not_le.mpr hr.below.2 h
  · exact h (List.isPrefixOf_iff_prefix.mpr hr.below.1)
  · omega

theorem awaits_next
    (h : ∀ entry ∈ entries, ∃ source, Sent root entry source) :
    Awaits root done ⟨root, [], none⟩ ⟨done, none⟩ entries (stream entries) := by
  cases entries
  case nil => exact .idle
  case cons entry entries =>
    obtain ⟨source, hs⟩ := h entry mem_cons_self
    rw [stream_cons, hs.exact.bytes]
    exact .header hs rfl headerLine_ne_nil

-- A receiver after some bytes, as far as the rest of the entries is concerned.
def Reached (root : SourceFile) (all : List Entry) (receiver : Receiver) (gathered : Gathered)
    (left : List UInt8) : Prop :=
  ∃ sent entries, Awaits root (sent.map Entry.arrived) receiver gathered entries left ∧
    (∀ entry ∈ entries, ∃ source, Sent root entry source) ∧ all = sent ++ entries

omit [ArchiveWriter] in
theorem Entry.Exact.arrived {entry : Entry} {source : UploadSource} (h : entry.Exact source) :
    entry.arrived = (source.isDir, source.pathName, if source.isDir then [] else entry.content) := by
  rw [Entry.arrived, h.isDir, h.metadata]
  rfl

theorem reached_next {entry : Entry} {source : UploadSource} {sent entries : List Entry}
    {content : List UInt8} (h : Sent root entry source)
    (hs : ∀ entry ∈ entries, ∃ source, Sent root entry source)
    (hc : (if source.isDir then [] else entry.content) = content) :
    Reached root (sent ++ entry :: entries) ⟨root, [], none⟩
      ⟨sent.map Entry.arrived ++ [(source.isDir, source.pathName, content)], none⟩ (stream entries) := by
  refine ⟨sent ++ [entry], entries, ?_, hs, append_cons _ _ _⟩
  rw [← hc, ← h.exact.arrived, ← map_singleton, ← map_append]
  exact awaits_next hs

theorem reached_member {source : UploadSource} {received : Nat}
    (pending : received < source.file.size) (h : Sent root entry source)
    (hs : ∀ entry ∈ entries, ∃ source, Sent root entry source) (hd : source.isDir = false)
    (hc : content = entry.content.take received) :
    Reached root (sent ++ entry :: entries) ⟨root, [], some ⟨source.file, received, pending⟩⟩
      ⟨sent.map Entry.arrived, some (source.pathName, content)⟩
      (entry.content.drop received ++ stream entries) := by
  rw [hc]
  exact ⟨sent, entry :: entries, .member h hd, forall_mem_cons.mpr ⟨⟨source, h⟩, hs⟩, rfl⟩

theorem openEntry_reached (h : Sent root entry source)
    (hs : ∀ entry ∈ entries, ∃ source, Sent root entry source) :
    Reached root (sent ++ entry :: entries) ⟨root, [], (Receiver.openEntry source.file).2⟩
      ((Receiver.openEntry source.file).1.foldl Gathered.add ⟨sent.map Entry.arrived, none⟩)
      ((if source.isDir then [] else entry.content) ++ stream entries) := by
  rw [Receiver.openEntry]
  cases hd : source.isDir
  case true =>
    have hdir : source.file.isDir = true := hd
    have hnext := @reached_next _ root entry source sent entries [] h hs (if_pos hd)
    rw [hd] at hnext
    rw [if_pos hdir]
    exact hnext
  case false =>
    have hc := h.exact.content hd
    have hdir : ¬ source.file.isDir = true := Bool.eq_false_iff.mp hd
    rw [if_neg hdir, if_neg Bool.false_ne_true]
    split
    case isTrue hpos => exact reached_member hpos h hs hd rfl
    case isFalse hpos =>
      have hz : source.file.size = source.size := rfl
      have hnil : entry.content = [] := eq_nil_of_length_eq_zero (by omega)
      have hnext := @reached_next _ root entry source sent entries [] h hs (by rw [hd, hnil]; rfl)
      rw [hd] at hnext
      rw [hnil]
      exact hnext

section Rounds

open Receiver

variable {all : List Entry}
-- One round takes some bytes and keeps to the stream.
def Advances (root : SourceFile) (all : List Entry) (receiver : Receiver) (gathered : Gathered)
    (bytes later : List UInt8) : Prop :=
  ∃ events next rest, receiver.round bytes = (events, .ok (next, rest)) ∧ rest.length < bytes.length ∧
    Reached root all next (events.foldl Gathered.add gathered) (rest ++ later)

theorem round_member {source : UploadSource} {received : Nat}
    {pending : received < source.file.size} (h : Sent root entry source) (hd : source.isDir = false)
    (hs : ∀ entry ∈ entries, ∃ source, Sent root entry source) (hne : bytes ≠ [])
    (hb : bytes ++ later = entry.content.drop received ++ stream entries) :
    Advances root (sent ++ entry :: entries) ⟨root, [], some ⟨source.file, received, pending⟩⟩
      ⟨sent.map Entry.arrived, some (source.pathName, entry.content.take received)⟩ bytes later := by
  have hc : (entry.content.length : Int) = source.file.size := h.exact.content hd
  have hpos := length_pos_iff.mpr hne
  generalize hlen : min bytes.length (source.file.size - received).toNat = length
  have hdrop : length ≤ (entry.content.drop received).length := by
    rw [length_drop]
    omega
  have htaken : bytes.take length = (entry.content.drop received).take length := by
    have ht := congrArg (List.take length) hb
    rwa [take_append_of_le_length (by omega), take_append_of_le_length hdrop] at ht
  have hleft : bytes.drop length ++ later = entry.content.drop (received + length) ++ stream entries := by
    have hl := congrArg (List.drop length) hb
    rwa [drop_append_of_le_length (by omega), drop_append_of_le_length hdrop,
      drop_drop] at hl
  have hcontent : entry.content.take received ++ bytes.take length =
      entry.content.take (received + length) := by
    rw [htaken, take_add]
  have hlength : (bytes.take length).length = length := by
    rw [length_take]
    omega
  have hround : Receiver.round ⟨root, [], some ⟨source.file, received, pending⟩⟩ bytes =
      ((takeBytes ⟨source.file, received, pending⟩ (bytes.take length)).1,
        .ok (⟨root, [], (takeBytes ⟨source.file, received, pending⟩ (bytes.take length)).2⟩,
          bytes.drop length)) := by
    rw [← hlen]
    rfl
  refine ⟨_, _, _, hround, by rw [length_drop]; omega, ?_⟩
  rw [hleft]
  generalize bytes.take length = taken at hcontent hlength ⊢
  subst hlength
  rw [Receiver.takeBytes]
  dsimp only
  split
  case isTrue hmore => exact reached_member hmore h hs hd hcontent
  case isFalse hend =>
    have hwhole : received + taken.length = entry.content.length := by omega
    rw [hwhole, take_length] at hcontent
    rw [hwhole, drop_length, nil_append]
    have hnext := @reached_next _ root entry source sent entries _ h hs
      ((if_neg (Bool.eq_false_iff.mp hd)).trans hcontent.symm)
    rw [hd] at hnext
    exact hnext

omit [ArchiveWriter] in
theorem line_inj {after : List UInt8} (hf : newline ∉ first) (hs : newline ∉ second)
    (h : first ++ newline :: after = second ++ newline :: after') :
    first = second ∧ after = after' := by
  have ha := congrArg Audit.afterLine h
  rw [Audit.afterLine_append hf, Audit.afterLine_append hs] at ha
  obtain rfl := Option.some.inj ha
  exact ⟨append_cancel_right h, rfl⟩

variable {read : List UInt8}

theorem headerLine_split (hline : read ++ rest = headerLine source) (hrest : rest ≠ []) :
    ∃ part, rest = part ++ [newline] ∧
      read ++ part = ArchiveWriter.encodeString (ArchiveWriter.writeSource source) := by
  obtain ⟨part, last, rfl⟩ := (eq_nil_or_concat rest).resolve_left hrest
  rw [headerLine, concat_eq_append, ← append_assoc] at hline
  obtain ⟨htext, hlast⟩ := List.append_inj' hline rfl
  obtain rfl : last = newline := singleton_inj.mp hlast
  exact ⟨part, concat_eq_append, htext⟩

theorem round_header (h : Sent root entry source)
    (hs : ∀ entry ∈ entries, ∃ source, Sent root entry source)
    (hline : read ++ rest = headerLine source) (hrest : rest ≠ []) (hne : bytes ≠ [])
    (hb : bytes ++ later = rest ++ (if source.isDir then [] else entry.content) ++ stream entries) :
    Advances root (sent ++ entry :: entries) ⟨root, read, none⟩ ⟨sent.map Entry.arrived, none⟩ bytes
      later := by
  obtain ⟨part, rfl, htext⟩ := headerLine_split hline hrest
  have hnone := h.readable.line
  have hshort := h.readable.short
  rw [← htext] at hnone hshort
  rw [mem_append, not_or] at hnone
  rw [length_append] at hshort
  have hround : Receiver.round ⟨root, read, none⟩ bytes = takeHeader ⟨root, read, none⟩ bytes := rfl
  rw [append_assoc, append_assoc, singleton_append] at hb
  rcases lineLength_cases bytes with ⟨line, after, hl, rfl, he⟩ | ⟨hl, he⟩
  case inl =>
    -- The line ends in these bytes, where the header does.
    rw [append_assoc, cons_append] at hb
    obtain ⟨rfl, hafter⟩ := line_inj hl hnone.2 hb
    have hk : (line ++ newline :: after).take (line.length + 1) = line ++ [newline] := by
      rw [take_append, take_of_length_le (by omega)]
      simp
    have hd : (line ++ newline :: after).drop (line.length + 1) = after := by
      simp [drop_append]
    have hopen : takeHeader ⟨root, read, none⟩ (line ++ newline :: after) =
        ((openEntry source.file).1, .ok (⟨root, [], (openEntry source.file).2⟩, after)) := by
      rw [takeHeader, he, hk, hd]
      dsimp only
      rw [if_neg (by omega), ← append_assoc read line [newline], if_neg (by simp),
        dropLast_concat, htext, readHeader_sent h]
    refine ⟨_, _, _, hround.trans hopen, by simp; omega, ?_⟩
    rw [hafter]
    exact openEntry_reached h hs
  case inr =>
    -- The header goes on behind these bytes.
    obtain ⟨more, hmore, hlater⟩ : ∃ more, part = bytes ++ more ∧
        later = more ++ newline :: ((if source.isDir then [] else entry.content) ++ stream entries) := by
      rcases append_eq_append_iff.mp hb with ⟨more, hp, hx⟩ | ⟨more, hp, hx⟩
      · exact ⟨more, hp, hx⟩
      · cases more
        case nil => exact ⟨[], by simpa using hp.symm, by simpa using hx.symm⟩
        case cons c more =>
          obtain ⟨rfl, -⟩ := cons.inj hx
          exact absurd (by rw [hp]; simp) hl
    subst hmore
    have hkeep : takeHeader ⟨root, read, none⟩ bytes = ([], .ok (⟨root, read ++ bytes, none⟩, [])) := by
      rw [takeHeader, he, take_length, drop_length]
      dsimp only
      rw [if_neg (by rw [length_append] at hshort; omega), if_pos]
      intro hlast
      have hmem := mem_of_getLast? hlast
      exact (mem_append.mp hmem).elim hnone.1 hl
    refine ⟨_, _, _, hround.trans hkeep, length_pos_iff.mpr hne, sent, entry :: entries, ?_, ?_, rfl⟩
    · have hheader := @Awaits.header _ root (sent.map Entry.arrived) entry source entries
        (read ++ bytes) (more ++ [newline]) h (by rw [← hline]; simp) (by simp)
      rw [nil_append, hlater]
      simpa using hheader
    · exact forall_mem_cons.mpr ⟨⟨source, h⟩, hs⟩

section

variable (h : Reached root all receiver gathered left)
include h

theorem round_reached (hne : bytes ≠ [])
    (hb : bytes ++ later = left) : Advances root all receiver gathered bytes later := by
  obtain ⟨sent, entries, ha, hs, rfl⟩ := h
  cases ha
  case idle => exact absurd (append_eq_nil_iff.mp hb).1 hne
  case header entry source entries read rest hsent hline hrest =>
    exact round_header hsent (fun e hm => hs e (mem_cons_of_mem _ hm)) hline hrest hne hb
  case member entry source entries received pending hsent hd =>
    exact round_member hsent hd (fun e hm => hs e (mem_cons_of_mem _ hm)) hne hb

theorem pushRounds_reached (hb : bytes ++ later = left) (hr : bytes.length ≤ rounds) :
    ∃ events next, receiver.pushRounds rounds bytes = (events, .ok next) ∧
      Reached root all next (events.foldl Gathered.add gathered) later := by
  induction rounds generalizing receiver gathered left bytes
  case zero =>
    obtain rfl : bytes = [] := eq_nil_of_length_eq_zero (by omega)
    obtain rfl : later = left := hb
    exact ⟨[], receiver, rfl, h⟩
  case succ rounds ih =>
    rw [pushRounds]
    rcases eq_or_ne bytes [] with rfl | hne
    · rw [if_pos rfl]
      obtain rfl : later = left := hb
      exact ⟨[], receiver, rfl, h⟩
    · obtain ⟨events, next, rest, hround, hless, hnext⟩ := round_reached h hne hb
      obtain ⟨more, last, hm, hlast⟩ := ih hnext rfl (by omega)
      rw [if_neg hne, hround]
      dsimp only
      rw [hm]
      refine ⟨events ++ more, last, rfl, ?_⟩
      rw [foldl_append]
      exact hlast

theorem pushAll_reached (hb : chunks.flatten ++ later = left) :
    ∃ events next, receiver.pushAll chunks = (events, .ok next) ∧
      Reached root all next (events.foldl Gathered.add gathered) later := by
  induction chunks generalizing receiver gathered left
  case nil =>
    obtain rfl : later = left := hb
    exact ⟨[], receiver, rfl, h⟩
  case cons chunk chunks ih =>
    rw [flatten_cons, append_assoc] at hb
    obtain ⟨events, next, hp, hn⟩ := pushRounds_reached h hb (Nat.le_refl chunk.length)
    obtain ⟨more, last, hm, hl⟩ := ih hn rfl
    have hpush : receiver.push chunk = (events, .ok next) := hp
    rw [pushAll, hpush]
    dsimp only
    rw [hm]
    refine ⟨events ++ more, last, rfl, ?_⟩
    rw [foldl_append]
    exact hl

end

end Rounds

section Boundaries

theorem stream_append : stream (first ++ second) = stream first ++ stream second :=
  flatMap_append

theorem stream_drop_lt (he : ∀ entry ∈ entries, ∃ source, entry.Exact source) (hi : i < j)
    (hj : j ≤ entries.length) : (stream (entries.drop j)).length < (stream (entries.drop i)).length := by
  have hlt : i < entries.length := by omega
  obtain ⟨source, hs⟩ := he entries[i] (getElem_mem hlt)
  have hdrop : entries.drop j <:+ entries.drop (i + 1) := by
    rw [show j = i + 1 + (j - (i + 1)) by omega, ← drop_drop]
    exact drop_suffix _ _
  obtain ⟨between, hb⟩ := hdrop
  have hhead := length_pos_iff.mpr (@headerLine_ne_nil _ source)
  rw [drop_eq_getElem_cons hlt, stream_cons, ← hb, stream_append, hs.bytes]
  simp only [length_append]
  omega

-- A receiver stands between two entries, or inside the first one that is not complete.
theorem awaits_boundary (h : Awaits root done receiver gathered entries left) :
    (receiver.finish = .ok () ∧ left = stream entries ∧ gathered = ⟨done, none⟩) ∨
    (receiver.finish ≠ .ok () ∧ ∃ entry later, entries = entry :: later ∧
      (stream later).length < left.length ∧ left.length < (stream entries).length) := by
  cases h
  case idle => exact .inl ⟨rfl, rfl, rfl⟩
  case header entry source later read rest hsent hline hrest =>
    have hbytes := congrArg List.length hline
    have hpos := length_pos_iff.mpr hrest
    cases read
    case nil =>
      obtain rfl : rest = headerLine source := hline
      exact .inl ⟨rfl, by rw [stream_cons, hsent.exact.bytes], rfl⟩
    case cons =>
      refine .inr ⟨nofun, entry, later, rfl, ?_, ?_⟩
      · simp only [length_append]
        omega
      · rw [stream_cons, hsent.exact.bytes]
        simp only [length_append, length_cons] at hbytes ⊢
        omega
  case member entry source later received pending hsent hd =>
    have hc : (entry.content.length : Int) = source.file.size := hsent.exact.content hd
    have hhead := length_pos_iff.mpr (@headerLine_ne_nil _ source)
    refine .inr ⟨nofun, entry, later, rfl, ?_, ?_⟩
    · rw [length_append, length_drop]
      omega
    · rw [stream_cons, hsent.exact.bytes, hd, if_neg Bool.false_ne_true]
      simp only [length_append, length_drop]
      omega

theorem reached_boundary {all : List Entry} (he : ∀ entry ∈ all, ∃ source, entry.Exact source)
    (h : Reached root all receiver gathered left) :
    (receiver.finish = .ok () → ∃ k ≤ all.length, left = stream (all.drop k)) ∧
    ∀ k ≤ all.length, left = stream (all.drop k) →
      receiver.finish = .ok () ∧ gathered = ⟨(all.take k).map Entry.arrived, none⟩ := by
  obtain ⟨sent, entries, ha, -, rfl⟩ := h
  have hdrop : (sent ++ entries).drop sent.length = entries := drop_left
  have hle : sent.length ≤ (sent ++ entries).length := by simp
  rcases awaits_boundary ha with ⟨hf, hl, hg⟩ | ⟨hf, entry, later, rfl, hlow, hhigh⟩
  case inl =>
    refine ⟨fun _ => ⟨sent.length, hle, by rw [hdrop, hl]⟩, fun k hk hleft => ⟨hf, ?_⟩⟩
    have hsame : k = sent.length := by
      rw [hl] at hleft
      have hlen := congrArg List.length hleft
      rcases Nat.lt_trichotomy k sent.length with hlt | heq | hgt
      · have hless := stream_drop_lt he hlt hle
        rw [hdrop] at hless
        omega
      · exact heq
      · have hless := stream_drop_lt he hgt hk
        rw [hdrop] at hless
        omega
    rw [hg, hsame, take_left]
  case inr =>
    refine ⟨fun h => absurd h hf, fun k hk hleft => ?_⟩
    have hnext : (sent ++ entry :: later).drop (sent.length + 1) = later := by
      rw [append_cons]
      exact List.drop_left' (by simp)
    rw [hleft] at hlow hhigh
    rcases Nat.lt_trichotomy k sent.length with hlt | rfl | hgt
    · have hless := stream_drop_lt he hlt hle
      rw [hdrop] at hless
      omega
    · rw [hdrop] at hhigh
      omega
    · rcases Nat.eq_or_lt_of_le hgt with rfl | hgt
      · rw [hnext] at hlow
        omega
      · have hless := stream_drop_lt he hgt hk
        rw [hnext] at hless
        omega

end Boundaries

end Receive

-- The stream of an archive has the announced size, however it is read. A receiver of any part of it
-- fails in no chunk. It finishes where an entry ends, at the end as well as before, and has then got
-- the entries up to there.
theorem archive_transfer_is_exact {entries rest : List Entry} {packed : List Packed} {root : Entry}
    (h : pack entries = .ok packed) (hm : .archive root rest ∈ packed)
    (he : ∀ entry ∈ rest, ∃ source, entry.Exact source) :
    ∃ source, root.source = some source ∧ source.archive = true ∧ source.size = root.size ∧
    root.size = (stream rest).length ∧
    (∀ buffers, (∀ buffer ∈ buffers, 0 < buffer.1) →
      ∃ bytes next, (Reader.new rest).drain buffers = .ok (bytes, next) ∧ bytes <+: stream rest ∧
        (buffers.length ≤ bytes.length ∨ bytes = stream rest)) ∧
    ((∀ entry ∈ rest, ∀ member ∈ entry.source, Entry.Readable source.file member) →
      ∀ chunks, chunks.flatten <+: stream rest →
        ∃ events receiver, (Receiver.new source.file).pushAll chunks = (events, .ok receiver) ∧
          (receiver.finish = .ok () ↔ ∃ k ≤ rest.length, chunks.flatten = stream (rest.take k)) ∧
          ∀ k ≤ rest.length, chunks.flatten = stream (rest.take k) →
            gather events = ⟨(rest.take k).map Entry.arrived, none⟩) := by
  obtain ⟨source, hsource, harchive, hsize, hsum⟩ := pack_announces h _ hm root rest rfl
  refine ⟨source, hsource, harchive, hsize, ?_, ?_, ?_⟩
  · rw [foldlM_addSize he hsum, Int.zero_add]
  · intro buffers hb
    have hexact : (Reader.new rest).Exact := ⟨he, nofun⟩
    obtain ⟨bytes, next, hd, hleft, hcount⟩ := Reader.drain_exact hexact hb
    have hall : bytes ++ next.left = stream rest := hleft
    refine ⟨bytes, next, hd, ⟨_, hall⟩, hcount.imp_right fun hnil => ?_⟩
    rw [hnil, append_nil] at hall
    exact hall
  · rintro hr chunks ⟨later, hlater⟩
    have hsent : ∀ entry ∈ rest, ∃ member, Sent source.file entry member := by
      intro entry hme
      obtain ⟨member, hex⟩ := he entry hme
      exact ⟨member, hex, hr entry hme member hex.metadata⟩
    have hstart : Reached source.file rest (Receiver.new source.file) ⟨[], none⟩ (stream rest) :=
      ⟨[], rest, awaits_next hsent, hsent, rfl⟩
    obtain ⟨events, receiver, hp, hreached⟩ := pushAll_reached hstart hlater
    obtain ⟨hfinish, hboundary⟩ := reached_boundary he hreached
    have hsplit (k : Nat) : chunks.flatten = stream (rest.take k) ↔ later = stream (rest.drop k) := by
      have hall := hlater
      rw [← take_append_drop k rest, stream_append] at hall
      constructor
      · intro hk
        rw [hk] at hall
        exact append_cancel_left hall
      · intro hk
        rw [hk] at hall
        exact append_cancel_right hall
    refine ⟨events, receiver, hp, ⟨?_, ?_⟩, fun k hk hc => (hboundary k hk ((hsplit k).mp hc)).2⟩
    · intro hf
      obtain ⟨k, hk, hl⟩ := hfinish hf
      exact ⟨k, hk, (hsplit k).mpr hl⟩
    · rintro ⟨k, hk, hc⟩
      exact (hboundary k hk ((hsplit k).mp hc)).1

end NyaTerm.Trzsz.Archive

namespace NyaTerm.Trzsz.Archive.Sample

open Trzsz.Sample

-- Headers are the path of the only file.
@[reducible]
def writer : ArchiveWriter where
  toLibrary := plainLibrary
  encodeString := id
  writeSource _ := Library.toUtf8 "d/f"

attribute [local instance] writer

def directory : Entry := ⟨"d", 0, some ⟨0, ["d"], true, 0, none, false⟩, []⟩

def fileSource : UploadSource := ⟨0, ["d", "f"], false, 4, none, false⟩

def file : Entry := ⟨"f", 4, some fileSource, [1, 2, 3, 4]⟩

def root (size : Int) : Entry := ⟨"d", size, some ⟨0, ["d"], true, size, none, true⟩, []⟩

theorem file_exact : file.Exact fileSource :=
  ⟨rfl, rfl, fun _ => rfl⟩

theorem file_readable (size : Int) : Entry.Readable ⟨0, ["d"], true, true, size⟩ fileSource where
  line := by decide
  short := by decide
  decoded := by decide
  valid := by decide
  plain := rfl
  pathId := rfl
  below := ⟨⟨["f"], rfl⟩, Nat.lt_succ_self 1⟩

theorem archive_transfer_is_exact_file :
    pack [directory, file] = .ok [.archive (root 8) [file]] ∧
    ∃ events receiver, (Receiver.new ⟨0, ["d"], true, true, 8⟩).pushAll
      [[100, 47, 102], [10, 1, 2], [3, 4]] = (events, .ok receiver) ∧ receiver.finish = .ok () ∧
      gather events = ⟨[(false, ["d", "f"], [1, 2, 3, 4])], none⟩ := by
  have hp : pack [directory, file] = .ok [.archive (root 8) [file]] := rfl
  have he : ∀ entry ∈ [file], ∃ source, entry.Exact source := by
    intro entry hm
    rw [mem_singleton.mp hm]
    exact ⟨_, file_exact⟩
  obtain ⟨source, hs, -, -, -, -, hreceive⟩ := archive_transfer_is_exact hp mem_cons_self he
  obtain rfl := Option.some.inj hs
  have hr : ∀ entry ∈ [file], ∀ member ∈ entry.source,
      Entry.Readable ⟨0, ["d"], true, true, 8⟩ member := by
    intro entry hm member hs
    rw [mem_singleton.mp hm] at hs
    rw [← Option.some.inj hs]
    exact file_readable 8
  obtain ⟨events, receiver, hpush, hfinish, hgather⟩ :=
    hreceive hr [[100, 47, 102], [10, 1, 2], [3, 4]] (by decide)
  exact ⟨hp, events, receiver, hpush, hfinish.mpr ⟨1, by decide, by decide⟩,
    hgather 1 (by decide) (by decide)⟩

-- The stream of two files, cut off behind the first.
theorem archive_prefix_finishes :
    pack [directory, file, file] = .ok [.archive (root 16) [file, file]] ∧
    (∀ entry ∈ [file, file], ∃ source, entry.Exact source ∧
      Entry.Readable ⟨0, ["d"], true, true, 16⟩ source) ∧
    stream [file] <+: stream [file, file] ∧ stream [file] ≠ stream [file, file] ∧
    ∃ events receiver, (Receiver.new ⟨0, ["d"], true, true, 16⟩).pushAll [stream [file]] =
      (events, .ok receiver) ∧ receiver.finish = .ok () := by
  refine ⟨rfl, ?_, by decide, by decide, _, _, rfl, rfl⟩
  intro entry hm
  obtain rfl : entry = file := by simpa using hm
  exact ⟨fileSource, file_exact, file_readable 16⟩

end NyaTerm.Trzsz.Archive.Sample

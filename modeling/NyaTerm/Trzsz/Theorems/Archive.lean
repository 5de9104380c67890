import NyaTerm.Trzsz.Audit

open List

namespace NyaTerm.Trzsz

namespace Audit

-- The auditor while an archive is received.
def inArchive (a : Audit) (size : Option Int) (content unread : List UInt8) (file : Option OpenFile) :
    Audit :=
  { a with entry := some ⟨true, size, content, unread⟩, file }

theorem afterLine_append (h : newline ∉ line) :
    afterLine (line ++ newline :: rest) = some rest := by
  have hd : (line ++ newline :: rest).dropWhile (· ≠ newline) = newline :: rest := by
    rw [dropWhile_append_of_pos, dropWhile_cons_of_neg (by simp)]
    intro c hc
    simpa using fun he : c = newline => h (he ▸ hc)
  rw [afterLine, hd]

theorem takeLine_complete {a : Audit} {entry : Entry} (h : a.takeLine entry = some b) :
    b.complete = a.complete := by
  rw [takeLine] at h
  split at h
  case isTrue =>
    obtain ⟨_, _, rfl⟩ := Option.map_eq_some_iff.mp h
    rfl
  case isFalse => cases h

variable [Library] {a : Audit} {s : List Observation} {acts : List Act}

theorem run_cons (o : Observation) : a.run (o :: t) = (a.step o).bind (·.run t) := rfl

theorem run_append : a.run (s ++ t) = (a.run s).bind (·.run t) := by
  rw [run, foldlM_append]
  rfl

-- The auditor accepts what is done, and then is in a state as described.
def Accepts (a : Audit) (acts : List Act) (post : Audit → Prop) : Prop :=
  ∃ b, a.run (acts.map .act) = some b ∧ post b

theorem accepts_nil (h : post a) : a.Accepts [] post :=
  ⟨a, rfl, h⟩

theorem accepts_cons {act : Act} (hc : a.complete = false) (ha : a.act act = some b)
    (h : b.Accepts acts post) : a.Accepts (act :: acts) post := by
  obtain ⟨c, hr, hp⟩ := h
  refine ⟨c, ?_, hp⟩
  have hs : a.step (.act act) = some b := by
    rw [step, if_neg (by simp [hc])]
    exact ha
  rw [map_cons, run_cons, hs]
  exact hr

theorem accepts_cons_iff {act : Act} : a.Accepts (act :: acts) post ↔
    a.complete = false ∧ ∃ b, a.act act = some b ∧ b.Accepts acts post := by
  constructor
  case mpr =>
    rintro ⟨hc, b, ha, h⟩
    exact accepts_cons hc ha h
  case mp =>
    rintro ⟨c, hr, hp⟩
    rw [map_cons, run_cons, Option.bind_eq_some_iff] at hr
    obtain ⟨b, hs, hr⟩ := hr
    rw [step] at hs
    split at hs
    case isTrue => cases hs
    case isFalse hc => exact ⟨by simpa using hc, b, hs, c, hr, hp⟩

theorem emit_complete (h : a.emit event = some b) :
    b.complete = (a.complete || event.isCompleted) := by
  cases event
  case filePath | directory =>
    simp only [emit] at h
    repeat' split at h
    all_goals first | (cases h <;> simp [DownloadEvent.isCompleted]) |
      simp [takeLine_complete h, DownloadEvent.isCompleted]
  case fileFinished digest =>
    cases digest
    all_goals simp only [emit, closeMember, verify] at h
    all_goals repeat' split at h
    all_goals cases h
    all_goals simp [DownloadEvent.isCompleted]
  all_goals simp only [emit, named, openFile, handOver, finish] at h
  all_goals repeat' split at h
  all_goals cases h
  all_goals simp [DownloadEvent.isCompleted]

theorem Accepts.append {more : List Act} (h : a.Accepts acts fun b => b.Accepts more post) :
    a.Accepts (acts ++ more) post := by
  obtain ⟨b, hb, c, hc, hp⟩ := h
  refine ⟨c, ?_, hp⟩
  rw [map_append, run_append, hb]
  exact hc

theorem Accepts.mono (h : a.Accepts acts post) (hp : ∀ b, post b → post' b) :
    a.Accepts acts post' :=
  h.imp fun b hb => ⟨hb.1, hp b hb.2⟩

end Audit

namespace Archive.Receiver

variable {receiver : Receiver}

open Audit

-- The file that a member is, in the eyes of the auditor.
def fileOf (current : Option Member) : Option OpenFile :=
  current.map fun member => ⟨member.file.size, member.received⟩

-- Between two calls, the header is a line without an end, and there is none while a file is open.
structure Clean (receiver : Receiver) : Prop where
  line : newline ∉ receiver.header
  header_nil : receiver.current.isSome → receiver.header = []

theorem lineLength_cases (bytes : List UInt8) :
    (∃ line rest, newline ∉ line ∧ bytes = line ++ newline :: rest ∧
      lineLength bytes = line.length + 1) ∨
    newline ∉ bytes ∧ lineLength bytes = bytes.length := by
  rw [lineLength]
  cases h : bytes.idxOf? newline
  case none => exact .inr ⟨idxOf?_eq_none_iff.mp h, rfl⟩
  case some i =>
    rw [idxOf?_eq_some_iff] at h
    obtain ⟨hi, he, hl⟩ := h
    refine .inl ⟨bytes.take i, bytes.drop (i + 1), ?_, ?_, ?_⟩
    · intro hm
      obtain ⟨j, hj, hn⟩ := mem_take_iff_getElem.mp hm
      exact hl j (by omega) hn
    · calc bytes = bytes.take i ++ bytes.drop i := (take_append_drop i bytes).symm
        _ = bytes.take i ++ newline :: bytes.drop (i + 1) := by rw [drop_eq_getElem_cons hi, he]
    · rw [length_take, Nat.min_eq_left (by omega)]

variable [Library] {a : Audit} {bytes : List UInt8}

theorem accepts_takeBytes {member : Member} (hc : a.complete = false)
    (h : member.received + bytes.length ≤ member.file.size) :
    (a.inArchive size content (bytes ++ rest) (fileOf (some member))).Accepts
      ((takeBytes member bytes).1.map .emit)
      (· = a.inArchive size content rest (fileOf (takeBytes member bytes).2)) := by
  have hd : (a.inArchive size content (bytes ++ rest) (fileOf (some member))).act
      (.emit (.data member.file.fileName bytes ↑(member.received + bytes.length) member.file.size)) =
      some (a.inArchive size content rest
        (some ⟨member.file.size, ↑(member.received + bytes.length)⟩)) := by
    simp [act, emit, handOver, inArchive, fileOf, h]
  rw [takeBytes]
  split
  case isTrue hp => exact accepts_cons hc hd (accepts_nil rfl)
  case isFalse hp =>
    refine accepts_cons hc hd (accepts_cons hc ?_ (accepts_nil rfl))
    have he : (↑(member.received + bytes.length) : Int) = member.file.size := by omega
    simp [act, emit, closeMember, inArchive, fileOf, he]

theorem accepts_openEntry {file : SourceFile} (hc : a.complete = false) (hs : 0 ≤ file.size)
    (hl : afterLine unread = some rest) :
    (a.inArchive size content unread none).Accepts ((openEntry file).1.map .emit)
      (· = a.inArchive size content rest (fileOf (openEntry file).2)) := by
  have hp : (a.inArchive size content unread none).act
      (.emit (.filePath file.fileName file.pathId file.pathName)) =
      some (a.inArchive size content rest none) := by
    simp [act, emit, takeLine, inArchive, hl]
  have ho : (a.inArchive size content rest none).act (.emit (.fileSize file.fileName file.size)) =
      some (a.inArchive size content rest (some ⟨file.size, 0⟩)) := by
    simp [act, emit, openFile, inArchive, hs]
  rw [openEntry]
  split
  case isTrue => exact accepts_cons hc (by simp [act, emit, takeLine, inArchive, hl]; rfl) (accepts_nil rfl)
  split
  case isTrue => exact accepts_cons hc hp (accepts_cons hc ho (accepts_nil rfl))
  case isFalse hz =>
    refine accepts_cons hc hp (accepts_cons hc ho (accepts_cons hc ?_ (accepts_nil rfl)))
    have he : file.size = 0 := by omega
    simp [act, emit, closeMember, inArchive, fileOf, he]

theorem readHeader_size {root file : SourceFile} (h : readHeader root line = .ok file) :
    0 ≤ file.size := by
  rw [readHeader] at h
  repeat' split at h
  all_goals cases h
  omega

-- What a round leaves to do: the bytes are those that the auditor has not seen handed over.
structure Round (a : Audit) (size : Option Int) (content : List UInt8) (length : Nat) (b : Audit)
    (receiver : Receiver) (rest : List UInt8) : Prop where
  clean : receiver.Clean
  shorter : rest.length < length
  audit : b = a.inArchive size content (receiver.header ++ rest) (fileOf receiver.current)

section

variable (hc : a.complete = false) (hb : bytes ≠ []) (hi : receiver.Clean)
include hc hb hi

theorem accepts_takeMember (hm : receiver.current = some member) :
    (a.inArchive size content (receiver.header ++ bytes) (fileOf receiver.current)).Accepts
      ((receiver.takeMember member bytes).1.map .emit) fun b =>
      Round a size content bytes.length b (receiver.takeMember member bytes).2.1
        (receiver.takeMember member bytes).2.2 := by
  have hn : receiver.header = [] := hi.header_nil (by rw [hm]; rfl)
  have hpos : 0 < bytes.length := length_pos_iff.mpr hb
  have hpend := member.pending
  rw [takeMember, hn, hm]
  generalize hlen : min bytes.length (member.file.size - member.received).toNat = length
  have hl : (bytes.take length).length = length := by
    rw [length_take]
    omega
  have hi : Clean { receiver with
      header := [], current := (takeBytes member (bytes.take length)).2 } :=
    ⟨by simp, fun _ => rfl⟩
  have ht : (a.inArchive size content (bytes.take length ++ bytes.drop length)
      (fileOf (some member))).Accepts _ _ :=
    accepts_takeBytes hc (by omega)
  rw [take_append_drop] at ht
  refine ht.mono fun b hb => ⟨hi, ?_, ?_⟩
  · rw [length_drop]
    omega
  · rw [hb]
    rfl

theorem accepts_takeHeader
    (hm : receiver.current = none) :
    (a.inArchive size content (receiver.header ++ bytes) none).Accepts
      ((receiver.takeHeader bytes).1.map .emit) fun b =>
      ∀ receiver' rest, (receiver.takeHeader bytes).2 = .ok (receiver', rest) →
        Round a size content bytes.length b receiver' rest := by
  have hpos : 0 < bytes.length := length_pos_iff.mpr hb
  rw [takeHeader]
  split
  case isTrue => exact accepts_nil nofun
  rcases lineLength_cases bytes with ⟨line, rest, hl, rfl, he⟩ | ⟨hl, he⟩
  case inl =>
    have hk : (line ++ newline :: rest).take (line.length + 1) = line ++ [newline] := by
      rw [take_append, take_of_length_le (by omega)]
      simp
    have hd : (line ++ newline :: rest).drop (line.length + 1) = rest := by
      simp [drop_append]
    rw [he, hk, hd, ← append_assoc receiver.header line [newline], if_neg (by simp),
      dropLast_concat]
    split
    case h_1 => exact accepts_nil nofun
    case h_2 file hf =>
      have ha : afterLine (receiver.header ++ (line ++ newline :: rest)) = some rest := by
        rw [← append_assoc]
        exact afterLine_append (by simp [hi.line, hl])
      refine (accepts_openEntry hc (readHeader_size hf) ha).mono ?_
      rintro b rfl receiver' rest' h
      cases h
      exact ⟨⟨by simp, fun _ => rfl⟩, by simp; omega, rfl⟩
  case inr =>
    rw [he, take_length, drop_length, if_pos]
    case hc =>
      intro h
      have hmem := mem_of_getLast? h
      simp [hi.line, hl] at hmem
    refine accepts_nil fun receiver' rest h => ?_
    cases h
    refine ⟨⟨by simp [hi.line, hl], fun h => ?_⟩, by simpa using hpos, by simp [hm, fileOf]⟩
    rw [hm] at h
    cases h

theorem accepts_round :
    (a.inArchive size content (receiver.header ++ bytes) (fileOf receiver.current)).Accepts
      ((receiver.round bytes).1.map .emit) fun b =>
      ∀ receiver' rest, (receiver.round bytes).2 = .ok (receiver', rest) →
        Round a size content bytes.length b receiver' rest := by
  rw [round]
  split
  case h_1 member hm =>
    refine (accepts_takeMember hc hb hi hm).mono fun b hr receiver' rest h => ?_
    cases h
    exact hr
  case h_2 hm =>
    rw [hm]
    exact accepts_takeHeader hc hb hi hm

end

-- What is left when all bytes are taken.
def Pushed (a : Audit) (size : Option Int) (content : List UInt8) (result : Except String Receiver)
    (b : Audit) : Prop :=
  ∀ receiver, result = .ok receiver →
    receiver.Clean ∧ b = a.inArchive size content receiver.header (fileOf receiver.current)

theorem accepts_pushRounds (hc : a.complete = false) (hr : bytes.length ≤ rounds)
    (hi : receiver.Clean) :
    (a.inArchive size content (receiver.header ++ bytes) (fileOf receiver.current)).Accepts
      ((receiver.pushRounds rounds bytes).1.map .emit)
      (Pushed a size content (receiver.pushRounds rounds bytes).2) := by
  induction rounds generalizing receiver bytes
  case zero =>
    obtain rfl : bytes = [] := length_eq_zero_iff.mp (by omega)
    refine accepts_nil ?_
    rintro _ ⟨⟩
    exact ⟨hi, by rw [append_nil]⟩
  case succ rounds ih =>
    rw [pushRounds]
    split
    case isTrue hb =>
      refine accepts_nil ?_
      rintro _ ⟨⟩
      exact ⟨hi, by rw [hb, append_nil]⟩
    case isFalse hb =>
      have hround : (a.inArchive size content _ _).Accepts _ _ := accepts_round hc hb hi
      generalize receiver.round bytes = r at hround ⊢
      rcases r with ⟨events, e | ⟨receiver', rest⟩⟩
      case error =>
        refine hround.mono fun b _ => ?_
        rintro _ ⟨⟩
      case ok =>
        rw [map_append]
        refine (hround.mono fun b h => ?_).append
        have hl := h receiver' rest rfl
        rw [hl.audit]
        exact ih (by have := hl.shorter; omega) hl.clean

theorem accepts_push (hc : a.complete = false) (hi : receiver.Clean) :
    (a.inArchive size content (receiver.header ++ bytes) (fileOf receiver.current)).Accepts
      ((receiver.push bytes).1.map .emit) (Pushed a size content (receiver.push bytes).2) :=
  accepts_pushRounds hc (Nat.le_refl _) hi

end Archive.Receiver

end NyaTerm.Trzsz

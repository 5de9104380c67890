import NyaTerm.Trzsz.Theorems.Archive

namespace NyaTerm.Trzsz

open DownloadEngine

open Archive

variable [Library]

-- The entries that remain, of which one is being received, are those that were announced.
structure Counted (a : Audit) (remaining : Int) : Prop where
  complete : a.complete = false
  positive : 0 < remaining
  announced : a.announced = some (a.entries + (remaining - 1))

-- What was handed over of the data so far. The bytes of an archive that are still unread are those
-- of a header.
def Held (archive : Option Receiver) (state : DataState) (a : Audit) : Prop :=
  match archive with
  | none =>
    a.entry = some ⟨false, some state.size, state.md5, []⟩ ∧
    a.file = some ⟨state.size, state.received⟩
  | some receiver =>
    receiver.Clean ∧
    a.entry = some ⟨true, some state.size, state.md5, receiver.header⟩ ∧
    a.file = Receiver.fileOf receiver.current

structure Receiving (archive : Option Receiver) (state : DataState) (a : Audit) : Prop where
  counted : Counted a state.remaining
  length : state.received = state.md5.length
  bounded : state.received ≤ state.size
  held : Held archive state a

-- All data was received, and handed over.
structure Received (digest : List UInt8) (a : Audit) (archived : Bool) (content : List UInt8) :
    Prop where
  digest : digest = Library.md5 content
  entry : a.entry = some ⟨archived, some content.length, content, []⟩
  file : a.file = if archived then none else some ⟨content.length, content.length⟩

-- Nothing is being received.
structure Idle (archive : Option Receiver) (a : Audit) : Prop where
  archive : archive = none
  complete : a.complete = false
  entry : a.entry = none
  file : a.file = none

def TracksPhase (archive : Option Receiver) (a : Audit) : Phase → Prop
  | .awaitNum => Idle archive a ∧ a.announced = none ∧ a.entries = 0
  | .awaitName remaining _ =>
    Idle archive a ∧ 0 < remaining ∧ a.announced = some (a.entries + remaining)
  | .awaitSize remaining _ _ =>
    Counted a remaining ∧ a.file = none ∧ a.entry = some ⟨archive.isSome, none, [], []⟩ ∧
    ∀ receiver ∈ archive, receiver.header = [] ∧ receiver.current = none
  | .awaitData state => Receiving archive state a
  | .awaitMd5 remaining _ _ digest =>
    archive = none ∧ Counted a remaining ∧ ∃ archived content, Received digest a archived content
  | .completed _ => archive = none ∧ a.complete = true

-- The auditor knows where the engine is. An archive is received under a modern protocol only.
structure Tracks (engine : DownloadEngine) (a : Audit) : Prop where
  modern : engine.archive.isSome → 2 ≤ engine.protocolVersion
  phase : TracksPhase engine.archive a engine.phase

-- The auditor accepts what an engine does, and knows where it is unless it fails.
def Accounted (a : Audit) (observed : Observed) : Prop :=
  a.Accepts observed.acts fun b =>
    ∀ engine responses, observed.result = .ok (engine, responses) → Tracks engine b

section Steps

open Audit

variable {a : Audit} {engine : DownloadEngine} {frame : Frame}
variable {archive : Option Receiver}

theorem accounted_fail (error : DownloadError) : Accounted a (.fail error) :=
  accepts_nil fun _ _ h => (by cases h)

theorem accounted_done (h : a.Accepts (events.map .emit) (Tracks engine)) :
    Accounted a (.done events engine responses) := by
  refine h.mono fun b hb engine' responses' he => ?_
  cases he
  exact hb

theorem accepts_nextEntry (hi : Idle engine.archive a) (hr : 0 < remaining)
    (hn : a.announced = some (a.entries + (remaining - 1))) :
    a.Accepts ((engine.nextEntry remaining names).2.map .emit)
      (Tracks (engine.nextEntry remaining names).1) := by
  have hm : engine.archive.isSome → 2 ≤ engine.protocolVersion := by simp [hi.archive]
  rw [nextEntry]
  split
  case isTrue hz =>
    have he : remaining - 1 = 0 := by omega
    refine accepts_cons hi.complete (b := { a with complete := true }) ?_
      (accepts_nil ⟨hm, hi.archive, rfl⟩)
    rw [act, emit, finish, if_pos ⟨hi.entry, hi.file, by rw [hn, he, Int.add_zero]⟩]
  case isFalse hz => exact accepts_nil ⟨hm, hi, by omega, hn⟩

theorem accounted_observeNum (h : TracksPhase engine.archive a .awaitNum) :
    Accounted a (engine.observeNum frame) := by
  obtain ⟨hi, hn, he⟩ := h
  have hm : engine.archive.isSome → 2 ≤ engine.protocolVersion := by simp [hi.archive]
  rw [observeNum]
  split
  case isTrue => exact accounted_fail _
  split
  case h_1 => exact accounted_fail _
  case h_2 count _ =>
    have ha : a.act (.emit (.fileCount count)) = some { a with announced := some count } := by
      simp [act, emit, hn]
    have hi' : Idle engine.archive { a with announced := some count } :=
      { hi with }
    split
    case isTrue => exact accounted_fail _
    split
    case isTrue =>
      refine accounted_done (accepts_cons hi.complete ha ?_)
      refine accepts_cons hi.complete (b := { a with announced := some count, complete := true })
        ?_ (accepts_nil ⟨hm, hi.archive, rfl⟩)
      have hz : count = 0 := by omega
      simp [act, emit, finish, hi.entry, hi.file, he, hz]
    case isFalse =>
      refine accounted_done (accepts_cons hi.complete ha (accepts_nil ⟨hm, hi', by omega, ?_⟩))
      simp [he]

section

variable (hf : a.folder = false) (h : TracksPhase engine.archive a (.awaitName remaining names))
include hf h

theorem accounted_observeEntry {entry : SourceFile} :
    Accounted a (engine.observeEntry remaining names entry) := by
  obtain ⟨hi, hr, hn⟩ := h
  have hm : engine.archive.isSome → 2 ≤ engine.protocolVersion := by simp [hi.archive]
  have hd : ∀ name pathId components, a.act (.emit (.directory name pathId components)) =
      some { a with folder := true, entries := a.entries + 1 } := by
    simp [act, emit, hi.entry, hf]
  have hn' : a.announced = some (a.entries + 1 + (remaining - 1)) := by rw [hn]; congr 1; omega
  rw [observeEntry]
  split
  case isTrue =>
    split
    case isTrue => exact accounted_fail _
    case isFalse hv =>
      refine accounted_done (accepts_cons hi.complete (hd _ _ _) (accepts_cons hi.complete
        (b := { a with
          folder := true, entries := a.entries + 1, entry := some ⟨true, none, [], []⟩ }) ?_
        (accepts_nil ⟨fun _ => ?_, ⟨hi.complete, hr, hn'⟩, hi.file, rfl, ?_⟩)))
      · simp [act, emit, named, hi.entry]
      · change 2 ≤ engine.protocolVersion
        simp only [not_or] at hv
        omega
      · rintro receiver ⟨⟩
        exact ⟨rfl, rfl⟩
  case isFalse =>
    split
    case isTrue =>
      refine accounted_done (accepts_cons hi.complete (hd _ _ _) ?_)
      exact accepts_nextEntry { hi with } hr hn'
    case isFalse =>
      have ha : ∀ name, a.act (.emit (.fileName name)) =
          some { a with entries := a.entries + 1, entry := some ⟨false, none, [], []⟩ } := by
        simp [act, emit, named, hi.entry, hf]
      have hend : Tracks
          { engine with
            phase := .awaitSize remaining (pushUniqueName names entry.topLevelName) entry.fileName }
          { a with entries := a.entries + 1, entry := some ⟨false, none, [], []⟩ } :=
        ⟨hm, ⟨hi.complete, hr, hn'⟩, hi.file, by simp [hi.archive], by simp [hi.archive]⟩
      refine accounted_done ?_
      split
      case isTrue =>
        refine accepts_cons hi.complete (b := a) ?_ (accepts_cons hi.complete (ha _) (accepts_nil hend))
        simp [act, emit, hi.entry]
      case isFalse => exact accepts_cons hi.complete (ha _) (accepts_nil hend)

theorem accounted_observeName :
    Accounted a (engine.observeName frame remaining names) := by
  rw [observeName]
  split
  case isTrue => exact accounted_fail _
  split
  case h_1 => exact accounted_fail _
  case h_2 rawName _ =>
    split
    case isTrue =>
      split
      case h_1 => exact accounted_fail _
      case h_2 => exact accounted_observeEntry hf h
    case isFalse =>
      obtain ⟨hi, hr, hn⟩ := h
      refine accounted_done (accepts_cons hi.complete
        (b := { a with entries := a.entries + 1, entry := some ⟨false, none, [], []⟩ }) ?_
        (accepts_nil ⟨by simp [hi.archive], ⟨hi.complete, hr, ?_⟩, hi.file, ?_⟩))
      · simp [act, emit, named, hi.entry, hf]
      · rw [hn]
        congr 1
        change a.entries + remaining = a.entries + 1 + (remaining - 1)
        omega
      · simp [hi.archive]

end

theorem prepareDecoder_eq (h : engine.prepareDecoder size = .ok engine') :
    engine'.archive = engine.archive ∧ engine'.protocolVersion = engine.protocolVersion := by
  rw [prepareDecoder] at h
  repeat' split at h
  all_goals cases h
  all_goals exact ⟨rfl, rfl⟩

omit [Library] in
theorem integerPayload_eq (h : frame.integerPayload = .ok value) :
    frame.payload = .integer value := by
  rw [Frame.integerPayload] at h
  split at h <;> cases h
  assumption

omit [Library] in
theorem bytesPayload_eq (h : frame.bytesPayload = .ok bytes) :
    frame.payload = .encodedBytes bytes := by
  rw [Frame.bytesPayload] at h
  split at h <;> cases h
  assumption

theorem accepts_sized (hm : archive.isSome → 2 ≤ engine.protocolVersion)
    (ha : engine.archive = archive) (hc : Counted a remaining) (hs : 0 ≤ size) (hf : a.file = none)
    (he : a.entry = some ⟨archive.isSome, some size, [], []⟩)
    (hr : ∀ receiver ∈ archive, receiver.header = [] ∧ receiver.current = none) :
    a.Accepts ((if archive.isSome then [] else [DownloadEvent.fileSize name size]).map .emit)
      (Tracks { engine with
        phase :=
          if size = 0 ∧ engine.protocolVersion < 2 then
            .awaitMd5 remaining names name (Library.md5 [])
          else
            .awaitData ⟨remaining, names, name, size, 0, [], none⟩ }) := by
  cases archive
  case none =>
    refine accepts_cons hc.complete (b := { a with file := some ⟨size, 0⟩ }) ?_ (accepts_nil ?_)
    · simp [act, emit, openFile, he, hf, hs]
    · refine ⟨by simp [ha], ?_⟩
      have hc : Counted { a with file := some ⟨size, 0⟩ } remaining :=
        { hc with }
      change TracksPhase engine.archive _ (if _ then _ else _)
      rw [ha]
      split
      case isTrue hz => exact ⟨rfl, hc, false, [], rfl, by rw [he, hz.1]; rfl, by rw [hz.1]; rfl⟩
      case isFalse => exact ⟨hc, rfl, hs, he, rfl⟩
  case some receiver =>
    have hv : 2 ≤ engine.protocolVersion := hm rfl
    obtain ⟨hh, hcur⟩ := hr receiver rfl
    refine accepts_nil ⟨fun _ => hv, ?_⟩
    change TracksPhase engine.archive _ (if _ then _ else _)
    rw [ha, if_neg (by omega)]
    exact ⟨hc, rfl, hs, ⟨by simp [hh], fun _ => hh⟩, by rw [hh]; exact he, by rw [hcur]; exact hf⟩

theorem accounted_observeSize (hm : engine.archive.isSome → 2 ≤ engine.protocolVersion)
    (h : TracksPhase engine.archive a (.awaitSize remaining names name)) :
    Accounted (a.see frame) (engine.observeSize frame remaining names name) := by
  obtain ⟨hc, hf, he, hr⟩ := h
  rw [observeSize]
  split
  case isTrue => exact accounted_fail _
  case isFalse hs =>
    split
    case h_1 => exact accounted_fail _
    case h_2 size hi =>
      split
      case isTrue => exact accounted_fail _
      case isFalse hn =>
        split
        case h_1 => exact accounted_fail _
        case h_2 engine' hp =>
          obtain ⟨ha, hv⟩ := prepareDecoder_eq hp
          have hsee : (a.see frame).entry = some ⟨engine'.archive.isSome, some size, [], []⟩ := by
            simp [see, he, declared, integerPayload_eq hi, ha, not_not.mp hs]
          refine accounted_done (accepts_sized ?_ rfl { hc with }
            (by omega) hf hsee ?_)
          · rw [ha, hv]
            exact hm
          · rw [ha]
            exact hr

-- The state after some more bytes of data.
def DataState.take (state : DataState) (bytes : List UInt8) : DataState :=
  { state with md5 := state.md5 ++ bytes, received := state.received + bytes.length }

theorem act_consume {entry : Entry} (he : a.entry = some entry) (hs : entry.size = some size)
    (h : (entry.content.length + bytes.length : Int) ≤ size) :
    a.act (.consume bytes) = some { a with
      entry := some { entry with
        content := entry.content ++ bytes
        unread := entry.unread ++ bytes } } := by
  simp [act, consume, he, hs, h]

theorem accepts_plain (h : Receiving none state a) (hb : state.received + bytes.length ≤ state.size) :
    a.Accepts [.consume bytes, .emit (.data state.name bytes (state.take bytes).received state.size)]
      (Receiving none (state.take bytes)) := by
  obtain ⟨hc, hl, _, he, hf⟩ := h
  have hn : (state.md5.length + bytes.length : Int) ≤ state.size := by omega
  refine accepts_cons hc.complete (act_consume he rfl hn) (accepts_cons hc.complete
    (b := { a with
      entry := some ⟨false, some state.size, state.md5 ++ bytes, []⟩
      file := some ⟨state.size, state.received + bytes.length⟩ }) ?_ (accepts_nil ?_))
  · simp [act, emit, handOver, hf, hb, DataState.take]
  · refine ⟨{ hc with }, ?_, hb, rfl, rfl⟩
    simp [DataState.take, hl]

theorem accepts_archived (h : Receiving (some receiver) state a)
    (hb : state.received + bytes.length ≤ state.size) :
    a.Accepts (.consume bytes :: (receiver.push bytes).1.map .emit) fun b =>
      ∀ receiver', (receiver.push bytes).2 = .ok receiver' →
        Receiving (some receiver') (state.take bytes) b := by
  obtain ⟨hc, hl, _, hi, he, hf⟩ := h
  have hn : (state.md5.length + bytes.length : Int) ≤ state.size := by omega
  refine accepts_cons hc.complete (act_consume he rfl hn) ?_
  have hp : ({ a with
      entry := some ⟨true, some state.size, state.md5 ++ bytes, receiver.header ++ bytes⟩
      file := Receiver.fileOf receiver.current } : Audit).Accepts _ _ :=
    Receiver.accepts_push hc.complete hi
  rw [← hf] at hp
  refine hp.mono fun b h receiver' hr => ?_
  obtain ⟨hi', rfl⟩ := h receiver' hr
  refine ⟨{ hc with }, ?_, hb, hi', rfl, rfl⟩
  simp [DataState.take, hl]

theorem Receiving.received (h : Receiving archive state a) (hs : state.received = state.size)
    (hu : ∀ receiver ∈ archive, receiver.finish = .ok ()) :
    Received (Library.md5 state.md5) a archive.isSome state.md5 := by
  obtain ⟨hc, hl, _, hh⟩ := h
  have hsize : state.size = state.md5.length := by omega
  cases archive
  case none =>
    obtain ⟨he, hf⟩ := hh
    exact ⟨rfl, by rw [he, hsize]; rfl, by rw [hf, hl, hsize]; rfl⟩
  case some receiver =>
    obtain ⟨hi, he, hf⟩ := hh
    have hd := hu receiver rfl
    rw [Receiver.finish] at hd
    split at hd
    case isTrue => cases hd
    case isFalse hn =>
      simp only [not_or, ne_eq, not_not, Bool.not_eq_true, Option.isSome_eq_false_iff,
        Option.isNone_iff_eq_none] at hn
      exact ⟨rfl, by rw [he, hsize, hn.2]; rfl, by rw [hf, hn.1]; rfl⟩

theorem accounted_takeLegacy (ha : engine.archive = none) (h : Receiving none state a) :
    Accounted a (engine.takeLegacy state bytes) := by
  rw [takeLegacy]
  split
  case isTrue => exact accounted_fail _
  case isFalse hb =>
    refine (accepts_plain h (by omega)).mono fun b hr engine' responses he => ?_
    cases he
    refine ⟨by simp [ha], ?_⟩
    change TracksPhase engine.archive b (if _ then _ else _)
    rw [ha]
    split
    case isTrue hz => exact ⟨rfl, hr.counted, _, _, hr.received hz (by simp)⟩
    case isFalse => exact { hr with }

theorem accounted_observeLegacyData (ha : engine.archive = none) (h : Receiving none state a) :
    Accounted a (engine.observeLegacyData frame state) := by
  rw [observeLegacyData]
  split
  case isTrue => exact accounted_fail _
  split
  case h_1 =>
    refine accounted_done (accepts_nil ⟨by simp [ha], ?_⟩)
    change TracksPhase engine.archive a _
    rw [ha]
    exact { h with }
  case h_2 =>
    repeat' split
    all_goals first | exact accounted_fail _ | exact accounted_takeLegacy ha h

theorem accepts_takePieces (h : Receiving archive state a) :
    a.Accepts (takePieces state archive pieces).1 fun b =>
      ∀ state' archive', (takePieces state archive pieces).2 = .ok (state', archive') →
        archive'.isSome = archive.isSome ∧ Receiving archive' state' b := by
  induction pieces generalizing state archive a
  case nil =>
    refine accepts_nil fun state' archive' he => ?_
    cases he
    exact ⟨rfl, h⟩
  case cons piece pieces ih =>
    rw [takePieces]
    split
    case isTrue => exact ih h
    split
    case isTrue => exact accepts_nil fun _ _ he => (by cases he)
    case isFalse hb =>
      split
      case h_1 =>
        exact ((accepts_plain h (by omega)).mono fun b hr => ih hr).append
      case h_2 receiver =>
        have hp : a.Accepts (.consume piece :: _) _ := accepts_archived h (by omega)
        generalize receiver.push piece = pushed at hp ⊢
        rcases pushed with ⟨events, e | receiver'⟩
        case error => exact hp.mono fun b _ _ _ he => (by cases he)
        refine (hp.mono fun b hr => ?_).append
        exact ih (hr receiver' rfl)

theorem accounted_endFrame (hv : 2 ≤ engine.protocolVersion)
    (h : a.Accepts acts (Receiving engine.archive state)) :
    Accounted a ⟨acts, engine.endFrame frame state⟩ := by
  refine h.mono fun b hr engine' responses he => ?_
  simp only [endFrame] at he
  split at he
  case isTrue =>
    cases he
    exact ⟨fun _ => hv, hr⟩
  case isFalse =>
    split at he
    case isTrue => cases he
    case isFalse hs =>
      split at he
      case h_1 => cases he
      case h_2 hd =>
        cases he
        refine ⟨fun _ => hv, rfl, hr.counted, _, _, hr.received (not_not.mp hs) fun receiver hm => ?_⟩
        rw [Option.mem_def.mp hm] at hd
        exact hd

theorem accounted_takeModern (hv : 2 ≤ engine.protocolVersion)
    (h : Receiving engine.archive state a) :
    Accounted a (engine.takeModern frame state bytes last) := by
  simp only [takeModern]
  split
  case isTrue => exact accounted_fail _
  split
  case h_1 => exact accounted_fail _
  case h_2 decoder _ =>
    generalize Library.decode decoder bytes _ = decoded
    have hs : Receiving engine.archive
        { state with expectedBinaryChunk := if last then none else state.expectedBinaryChunk } a :=
      { h with }
    have hp : a.Accepts (takePieces _ _ decoded.1).1 _ := accepts_takePieces hs
    generalize takePieces _ engine.archive decoded.1 = taken at hp ⊢
    rcases taken with ⟨acts, e | ⟨state', archive'⟩⟩
    case error => exact hp.mono fun b _ _ _ he => (by cases he)
    have hp : a.Accepts acts (Receiving archive' state') := hp.mono fun b hb => (hb _ _ rfl).2
    dsimp only
    split
    case h_1 => exact hp.mono fun b _ _ _ he => (by cases he)
    split
    case isTrue => exact accounted_endFrame hv hp
    refine hp.mono fun b hb engine' responses he => ?_
    cases he
    exact ⟨fun _ => hv, hb⟩

theorem accounted_observeModernData (hv : 2 ≤ engine.protocolVersion)
    (h : Receiving engine.archive state a) :
    Accounted a (engine.observeModernData frame state) := by
  rw [observeModernData]
  split
  case isTrue => exact accounted_done (accepts_nil ⟨fun _ => hv, h⟩)
  split
  case isTrue =>
    rw [observeCompression]
    repeat' split
    all_goals first
      | exact accounted_fail _
      | exact accounted_done (accepts_nil ⟨fun _ => hv, h⟩)
  case isFalse =>
    split
    case isTrue => exact accounted_fail _
    split
    case h_1 =>
      split
      case isTrue => exact accounted_fail _
      split
      case isTrue =>
        exact accounted_done
          (accepts_nil ⟨fun _ => hv, h.counted, h.length, h.bounded, h.held⟩)
      case isFalse => exact accounted_takeModern hv h
    all_goals exact accounted_takeModern hv h

theorem accounted_observeMd5 {digest : List UInt8} (hl : a.latest = some frame) (hd : digest ≠ [])
    (h : TracksPhase engine.archive a (.awaitMd5 remaining names name digest)) :
    Accounted a (engine.observeMd5 frame remaining names name digest) := by
  obtain ⟨ha, hc, archived, content, hr⟩ := h
  rw [observeMd5]
  split
  case isTrue => exact accounted_fail _
  case isFalse hm =>
    split
    case h_1 => exact accounted_fail _
    case h_2 expected hb =>
      split
      case isTrue => exact accounted_fail _
      case isFalse he =>
        have hdig : frame.payload = .encodedBytes digest := by
          rw [bytesPayload_eq hb, not_not.mp he]
        have hv : a.act (.emit (.fileFinished name digest)) =
            some { a with entry := none, file := none } := by
          have hn : a.act (.emit (.fileFinished name digest)) = a.verify digest := by
            cases digest
            case nil => exact absurd rfl hd
            case cons => rfl
          rw [hn, verify, hr.entry]
          refine if_pos ⟨rfl, rfl, hr.digest.symm, ?_, hr.file⟩
          simp [hl, hdig, not_not.mp hm]
        refine accounted_done (accepts_cons hc.complete hv ?_)
        exact accepts_nextEntry ⟨ha, hc.complete, rfl, rfl⟩ hc.positive hc.announced

omit [Library]

theorem see_eq (h : ∀ entry ∈ a.entry, entry.size.isSome) :
    a.see frame = { a with latest := some frame, folder := false } := by
  have he : a.entry.map (declared frame) = a.entry := by
    cases hn : a.entry
    case none => rfl
    case some entry =>
      have hs := h entry hn
      rw [Option.map_some, declared]
      split
      case h_1 hz _ => simp [hz] at hs
      case h_2 => rfl
  rw [see, he]

theorem Receiving.see (h : Receiving archive state a) : Receiving archive state (a.see frame) := by
  have hs : ∀ entry ∈ a.entry, entry.size.isSome := by
    cases archive
    case none => simp [h.held.1]
    case some => simp [h.held.2.1]
  rw [see_eq hs]
  refine ⟨{ h.counted with }, h.length, h.bounded, ?_⟩
  cases archive
  case none | some => exact h.held

end Steps

theorem accounted_observeFrame (frame : Frame) (h : Tracks engine a) :
    Accounted (a.see frame) (engine.observeFrame frame) := by
  obtain ⟨hm, hp⟩ := h
  rw [observeFrame]
  split
  case h_1 he =>
    rw [he] at hp
    rw [see_eq (by simp [hp.1.entry])]
    exact accounted_observeNum ⟨{ hp.1 with }, hp.2⟩
  case h_2 he =>
    rw [he] at hp
    rw [see_eq (by simp [hp.1.entry])]
    exact accounted_observeName rfl ⟨{ hp.1 with }, hp.2⟩
  case h_3 he =>
    rw [he] at hp
    exact accounted_observeSize hm hp
  case h_4 state he =>
    rw [he] at hp
    split
    case isTrue hv => exact accounted_observeModernData hv hp.see
    case isFalse hv =>
      have ha : engine.archive = none := by
        by_contra hn
        exact hv (hm (Option.isSome_iff_ne_none.mpr hn))
      rw [ha] at hp
      exact accounted_observeLegacyData ha hp.see
  case h_5 he =>
    rw [he] at hp
    obtain ⟨ha, hc, archived, content, hr⟩ := hp
    rw [see_eq (by simp [hr.entry])]
    refine accounted_observeMd5 rfl (hr.digest ▸ Library.md5_ne_nil _) ⟨ha, ?_, archived, content, ?_⟩
    · exact { hc with }
    · exact { hr with }
  case h_6 => exact accounted_fail _

end NyaTerm.Trzsz

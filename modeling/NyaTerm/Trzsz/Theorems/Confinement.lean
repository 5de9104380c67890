import NyaTerm.Trzsz.Platforms
import NyaTerm.Trzsz.Theorems.Sink

open List

namespace NyaTerm.Trzsz

open DownloadEngine

section Downloads

variable [Library] [LocalPaths]

-- The name under which a size is awaited does not lead out of the directory.
def Phase.Safe : Phase → Prop
  | .awaitSize _ _ name => LocalPaths.anchor (safeFileName name) = none
  | _ => True

structure Observed.Safe (observed : Observed) : Prop where
  acts : ∀ event, .emit event ∈ observed.acts → event.Safe
  phase : ∀ engine responses, observed.result = .ok (engine, responses) → engine.phase.Safe

section Events

variable {engine : DownloadEngine}
variable {file : SourceFile}

theorem safe_fail (error : DownloadError) : (Observed.fail error).Safe :=
  ⟨fun _ h => (by cases h), fun _ _ h => (by cases h)⟩

theorem safe_done (he : ∀ event ∈ events, event.Safe) (hp : engine.phase.Safe) :
    (Observed.done events engine responses).Safe := by
  refine ⟨fun event h => ?_, fun engine' responses' h => ?_⟩
  · obtain ⟨e, hm, ⟨⟩⟩ := mem_map.mp h
    exact he _ hm
  · cases h
    exact hp

omit [Library] in
theorem unanchored_part (h : SourceFile.isPart part) :
    LocalPaths.anchor (safeFileName part) = none := by
  rw [safeFileName]
  split
  case isTrue => exact normal_defaultName.anchor
  refine unanchored_of_plain (fun c hc => plain_sanitize (by simpa using hc)) fun hc => ?_
  have hb := colon_sanitize (by simpa using hc)
  cases hf : LocalPaths.fileName part
  case none => exact absurd (hf ▸ hb) (by decide)
  case some base =>
    rw [hf] at hb
    exact Sink.colon_of_isPart h (LocalPaths.fileName_subset hf hb)

omit [Library] [LocalPaths] in
theorem isPart_of_valid (h : file.isValid) : ∀ part ∈ file.pathName, SourceFile.isPart part := by
  simp only [SourceFile.isValid, all_eq_true, decide_eq_true_eq] at h
  exact h.2.2.2

omit [Library] [LocalPaths] in
theorem isPart_fileName (h : file.isValid) : SourceFile.isPart file.fileName := by
  have hne : file.pathName ≠ [] := by
    simp only [SourceFile.isValid, decide_eq_true_eq] at h
    exact h.1
  rw [SourceFile.fileName, getLast?_eq_some_getLast hne]
  exact isPart_of_valid h _ (getLast_mem hne)

omit [Library] in
theorem safe_openEntry (h : file.isValid) :
    ∀ event ∈ (Archive.Receiver.openEntry file).1, event.Safe := by
  have hp := isPart_of_valid h
  have hn := unanchored_part (isPart_fileName h)
  rw [Archive.Receiver.openEntry]
  repeat' split
  all_goals simp only [forall_mem_cons, not_mem_nil, DownloadEvent.Safe, hn, and_true,
    false_imp_iff, implies_true]
  all_goals exact hp

omit [LocalPaths] in
theorem readHeader_valid (h : Archive.Receiver.readHeader root line = .ok file) : file.isValid := by
  rw [Archive.Receiver.readHeader] at h
  repeat' split at h
  all_goals cases h
  exact parseSourceFile_valid (by assumption)

variable {receiver : Archive.Receiver}

theorem safe_round :
    ∀ event ∈ (receiver.round bytes).1, event.Safe := by
  rw [Archive.Receiver.round]
  split
  case h_1 =>
    simp only [Archive.Receiver.takeMember, Archive.Receiver.takeBytes]
    split <;> simp [DownloadEvent.Safe]
  case h_2 =>
    rw [Archive.Receiver.takeHeader]
    repeat' split
    case h_2 hr => exact safe_openEntry (readHeader_valid hr)
    all_goals simp

theorem safe_pushRounds : ∀ event ∈ (receiver.pushRounds rounds bytes).1, event.Safe := by
  induction rounds generalizing receiver bytes
  case zero => simp [Archive.Receiver.pushRounds]
  case succ rounds ih =>
    rw [Archive.Receiver.pushRounds]
    split
    case isTrue => simp
    have hr : ∀ event ∈ (receiver.round bytes).1, event.Safe := safe_round
    split
    case h_1 he =>
      rw [he] at hr
      exact hr
    case h_2 he =>
      rw [he] at hr
      intro event hm
      rcases mem_append.mp hm with hm | hm
      · exact hr event hm
      · exact ih event hm

theorem safe_takePieces {archive : Option Archive.Receiver} :
    ∀ event, .emit event ∈ (takePieces state archive pieces).1 → event.Safe := by
  induction pieces generalizing state archive
  case nil => simp [takePieces]
  case cons piece pieces ih =>
    rw [takePieces]
    split
    case isTrue => exact ih
    split
    case isTrue => simp
    split
    case h_1 =>
      intro event hm
      simp only [mem_cons, reduceCtorEq, Act.emit.injEq, false_or] at hm
      rcases hm with rfl | hm
      · exact trivial
      · exact ih event hm
    case h_2 receiver =>
      have hp : ∀ event ∈ (receiver.push piece).1, event.Safe := safe_pushRounds
      split
      case h_1 he =>
        rw [he] at hp
        simpa using hp
      case h_2 he =>
        rw [he] at hp
        intro event hm
        simp only [mem_cons, reduceCtorEq, mem_append, mem_map, Act.emit.injEq,
          exists_eq_right, false_or] at hm
        rcases hm with hm | hm
        · exact hp event hm
        · exact ih event hm

theorem safe_nextEntry : (∀ event ∈ (engine.nextEntry remaining names).2, event.Safe) ∧
    (engine.nextEntry remaining names).1.phase.Safe := by
  rw [nextEntry]
  split
  case isTrue => exact ⟨by simp [DownloadEvent.Safe], trivial⟩
  case isFalse => exact ⟨by simp, trivial⟩

theorem safe_observeNum : (engine.observeNum frame).Safe := by
  rw [observeNum]
  repeat' split
  all_goals first
    | exact safe_fail _
    | exact safe_done (by simp [DownloadEvent.Safe]) trivial

theorem safe_observeEntry (h : file.isValid) :
    (engine.observeEntry remaining names file).Safe := by
  have hp := isPart_of_valid h
  have hn := unanchored_part (isPart_fileName h)
  rw [observeEntry]
  split
  case isTrue =>
    split
    case isTrue => exact safe_fail _
    case isFalse => exact safe_done (by simpa [DownloadEvent.Safe] using hp) hn
  case isFalse =>
    split
    case isTrue =>
      exact safe_done (forall_mem_cons.mpr ⟨hp, safe_nextEntry.1⟩) safe_nextEntry.2
    case isFalse =>
      refine safe_done ?_ hn
      split
      case isTrue => simpa [DownloadEvent.Safe] using hp
      case isFalse => simp [DownloadEvent.Safe]

theorem safe_observeName
    (h : ¬ (engine.directoryMode ∨ 3 ≤ engine.protocolVersion) → ∀ text, frame.is "NAME" →
      frame.stringPayload = .ok text → LocalPaths.anchor (safeFileName text) = none) :
    (engine.observeName frame remaining names).Safe := by
  rw [observeName]
  split
  case isTrue => exact safe_fail _
  case isFalse hf =>
    split
    case h_1 => exact safe_fail _
    case h_2 text ht =>
      split
      case isTrue =>
        split
        case h_1 => exact safe_fail _
        case h_2 entry hp => exact safe_observeEntry (parseSourceFile_valid hp)
      case isFalse hj =>
        exact safe_done (by simp [DownloadEvent.Safe]) (h hj text (not_not.mp hf) ht)

theorem safe_observeSize (h : LocalPaths.anchor (safeFileName name) = none) :
    (engine.observeSize frame remaining names name).Safe := by
  rw [observeSize]
  repeat' split
  all_goals first
    | exact safe_fail _
    | exact safe_done (by simp [DownloadEvent.Safe, h]) trivial

theorem safe_observeLegacyData : (engine.observeLegacyData frame state).Safe := by
  rw [observeLegacyData]
  repeat' split
  all_goals first
    | exact safe_fail _
    | exact safe_done (by simp) trivial
    | skip
  rw [takeLegacy]
  split
  case isTrue => exact safe_fail _
  refine ⟨by simp [DownloadEvent.Safe], fun engine' responses he => ?_⟩
  cases he
  split <;> trivial

theorem safe_endFrame (h : ∀ event, .emit event ∈ acts → event.Safe) :
    Observed.Safe ⟨acts, engine.endFrame frame state⟩ := by
  refine ⟨h, fun engine' responses he => ?_⟩
  simp only [endFrame] at he
  repeat' split at he
  all_goals cases he
  all_goals trivial

theorem safe_takeModern : (engine.takeModern frame state bytes last).Safe := by
  simp only [takeModern]
  split
  case isTrue => exact safe_fail _
  split
  case h_1 => exact safe_fail _
  case h_2 decoder _ =>
    generalize Library.decode decoder bytes _ = decoded
    generalize hs : DataState.mk _ _ _ _ _ _ _ = state'
    have ht : ∀ event,
        .emit event ∈ (takePieces state' engine.archive decoded.1).1 → event.Safe :=
      safe_takePieces
    split
    case h_1 he =>
      rw [he] at ht
      exact ⟨ht, fun _ _ h => (by cases h)⟩
    case h_2 he =>
      rw [he] at ht
      split
      case h_1 => exact ⟨ht, fun _ _ h => (by cases h)⟩
      split
      case isTrue => exact safe_endFrame ht
      refine ⟨ht, fun engine' responses h => ?_⟩
      cases h
      trivial

theorem safe_observeModernData : (engine.observeModernData frame state).Safe := by
  rw [observeModernData, observeCompression]
  repeat' split
  all_goals first
    | exact safe_fail _
    | exact safe_done (by simp) trivial
    | exact safe_takeModern

theorem safe_observeMd5 {digest : List UInt8} :
    (engine.observeMd5 frame remaining names name digest).Safe := by
  rw [observeMd5]
  repeat' split
  all_goals first
    | exact safe_fail _
    | exact safe_done (forall_mem_cons.mpr ⟨trivial, safe_nextEntry.1⟩) safe_nextEntry.2

-- A frame has a name that is taken as it is, and that does not lead out of the directory.
def NamesInside (engine : DownloadEngine) (frame : Frame) : Prop :=
  ¬ (engine.directoryMode ∨ 3 ≤ engine.protocolVersion) → ∀ text, frame.is "NAME" →
    frame.stringPayload = .ok text → LocalPaths.anchor (safeFileName text) = none

theorem safe_observeFrame (hp : engine.phase.Safe) (hn : NamesInside engine frame) :
    (engine.observeFrame frame).Safe := by
  rw [observeFrame]
  split
  case h_1 => exact safe_observeNum
  case h_2 => exact safe_observeName hn
  case h_3 he =>
    rw [he] at hp
    exact safe_observeSize hp
  case h_4 =>
    split
    case isTrue => exact safe_observeModernData
    case isFalse => exact safe_observeLegacyData
  case h_5 => exact safe_observeMd5
  case h_6 => exact safe_fail _

end Events

namespace Worker

variable [Host]

structure Confined (directory : Path) (worker : Worker) : Prop where
  sink : worker.sink.Confined
  directory : worker.sink.directory = directory
  phase : worker.engine.phase.Safe

theorem confined_deliver (h : Confined directory worker) (he : event.Safe) :
    Confined directory (worker.deliver event) := by
  rw [deliver]
  split
  case h_1 => exact { h with }
  case h_2 ha | h_3 ha =>
    obtain ⟨hs, hd⟩ := Sink.apply_confined h.sink he ha
    exact ⟨hs, hd.trans h.directory, h.phase⟩

theorem confined_perform (h : Confined directory worker)
    (ha : ∀ event, .emit event ∈ acts → event.Safe) : Confined directory (worker.perform acts) := by
  induction acts generalizing worker
  case nil => exact h
  case cons act acts ih =>
    have hrest : ∀ event, .emit event ∈ acts → event.Safe := fun event hm =>
      ha event (mem_cons_of_mem _ hm)
    cases act
    case consume => exact ih { h with } hrest
    case emit event =>
      rw [perform]
      split
      case isTrue => exact { h with }
      have hd : Confined directory ((worker.observe (.act (.emit event))).deliver event) :=
        confined_deliver { h with } (ha event mem_cons_self)
      dsimp only
      split
      case isTrue => exact hd
      case isFalse => exact ih hd hrest

theorem confined_transfer (h : Confined directory worker) (hn : NamesInside worker.engine frame) :
    Confined directory (worker.transfer frame) := by
  have ho := safe_observeFrame h.phase hn
  have hp : Confined directory ((worker.observe (.frame frame)).perform _) :=
    confined_perform { h with } ho.acts
  rw [transfer, settle.eq_def]
  split
  case isTrue => exact hp
  split
  case h_1 => exact { hp with }
  case h_2 engine responses he => exact { hp with phase := ho.phase engine responses he }

-- No name that is taken as it is leads out of the directory.
def Inward (worker : Worker) : List Frame → Prop
  | [] => True
  | frame :: frames =>
    (worker.outcome = none → NamesInside worker.engine frame) ∧ (worker.step frame).Inward frames

theorem confined_step (h : Confined directory worker)
    (hn : worker.outcome = none → NamesInside worker.engine frame) :
    Confined directory (worker.step frame) := by
  rw [step]
  split
  case isTrue => exact h
  case isFalse ho =>
    rw [processFrame]
    split
    case h_1 config _ =>
      split
      case h_1 => exact { h with }
      case h_2 engine hc =>
        refine { h with phase := ?_ }
        rw [configure] at hc
        cases hv : config.validate
        case error => simp [hv, Except.map] at hc
        rw [hv] at hc
        cases hc
        exact h.phase
    case h_2 =>
      split
      case isTrue => exact { h with }
      split
      case isTrue => exact confined_transfer h (hn (by simpa using ho))
      case isFalse => exact h

theorem confined_run (h : Confined directory worker) (hi : worker.Inward frames) :
    Confined directory (worker.run frames) := by
  induction frames generalizing worker
  case nil => exact h
  case cons frame frames ih => exact ih (confined_step h hi.1) hi.2

theorem confined_new (directory : Path) (world : Host.World) :
    Confined directory (.new directory world) :=
  ⟨⟨nofun, nofun, nofun,
    nofun⟩, rfl, trivial⟩

end Worker

-- Whatever the peer sends, files and directories are created in the directory of the download only,
-- under normal names, and no file that exists is opened.
theorem download_stays_inside [Host] (directory : Path) (world : Host.World) (frames : List Frame)
    (h : (Worker.new directory world).Inward frames) :
    ∀ op ∈ ((Worker.new directory world).run frames).sink.ops, op.Confined directory := by
  have hc := Worker.confined_run (Worker.confined_new directory world) h
  intro op hm
  have ho := hc.sink.ops op hm
  rw [hc.directory] at ho
  exact ho

end Downloads

namespace Sample

local instance plain : Library := plainLibrary

local instance memory : Host := memoryHost

section Unix

local instance unix : LocalPaths := Family.paths .unix

theorem unanchored_unix (name : String) : LocalPaths.anchor (safeFileName name) = none := by
  have hp : ∀ c ∈ (safeFileName name).toList, ¬ Family.unix.separator c := by
    rw [safeFileName]
    split
    case isTrue => exact normal_defaultName.plain
    case isFalse => exact fun c hc => plain_sanitize (by simpa using hc)
  change (if Family.unix.isAnchored (safeFileName name).toList then _ else none) = none
  rw [if_neg]
  intro h
  generalize (safeFileName name).toList = cs at hp h
  rcases cs with _ | ⟨c, _ | ⟨d, cs⟩⟩
  · cases h
  · exact hp c (by simp) h
  · exact hp c (by simp) h

theorem inward_unix (worker : Worker) (frames : List Frame) : worker.Inward frames := by
  induction frames generalizing worker
  case nil => trivial
  case cons frame frames ih => exact ⟨fun _ _ text _ _ => unanchored_unix text, ih _⟩

def climbingFrames : List Frame :=
  [⟨"NUM", .integer 1⟩, ⟨"NAME", .encodedBytes (Library.toUtf8 "../../evil")⟩, ⟨"SIZE", .integer 0⟩]

theorem download_stays_inside_climbing :
    ((Worker.new ["downloads"] []).run climbingFrames).sink.ops =
      [.createParent ["downloads"], .createNew [["downloads"]] ["downloads", "evil"]] ∧
    ∀ op ∈ ((Worker.new ["downloads"] []).run climbingFrames).sink.ops, op.Confined ["downloads"] :=
  ⟨rfl, download_stays_inside ["downloads"] [] climbingFrames (inward_unix _ climbingFrames)⟩

end Unix

section Windows

local instance windows : LocalPaths := Family.paths .windows

-- Behind a separator, the letter of a drive is the start of a name.
def driveFrames : List Frame :=
  [⟨"NUM", .integer 1⟩, ⟨"NAME", .encodedBytes (Library.toUtf8 "x/C:evil")⟩, ⟨"SIZE", .integer 0⟩]

theorem download_leaves_directory :
    .createNew [[], ["downloads"]] ["C:evil"] ∈
      ((Worker.new ["downloads"] [["downloads"]]).run driveFrames).sink.ops ∧
    ¬ Inside ["downloads"] ["C:evil"] := by
  constructor
  case left =>
    have hr : ((Worker.new ["downloads"] [["downloads"]]).run driveFrames).sink.ops =
        [.createParent [], .createNew [[], ["downloads"]] ["C:evil"]] := by rfl
    rw [hr]
    simp
  case right =>
    rintro ⟨names, _, he, _⟩
    simp at he

end Windows

end Sample

end NyaTerm.Trzsz

import NyaTerm.Trzsz.Platforms
import NyaTerm.Trzsz.Theorems.Download

namespace NyaTerm.Trzsz

namespace Worker

open Audit

variable [Library] [Host]

-- The auditor accepts the trace so far. The worker goes on until the transfer is complete, and
-- says that it is complete only then.
structure Watched (worker : Worker) (a : Audit) : Prop where
  trace : Audit.new.run worker.trace = some a
  running : worker.outcome = none → a.complete = false
  completed : ∀ names, worker.outcome = some (.completed names) → a.complete = true

variable {worker : Worker}

section

variable (h : Audit.new.run worker.trace = some a)
include h

theorem run_observe (hs : a.step o = some b) : Audit.new.run (worker.observe o).trace = some b := by
  rw [observe, run_append, h, Option.bind_some, run_cons, hs]
  rfl

theorem watched_fail {failure : Failure} :
    Watched (worker.fail failure) a :=
  ⟨h, nofun, nofun⟩

-- The auditor knows where the engine of a worker is that goes on.
structure Followed (worker : Worker) (a : Audit) : Prop where
  watched : Watched worker a
  tracks : worker.outcome = none → Tracks worker.engine a

theorem followed_fail {failure : Failure} :
    Followed (worker.fail failure) a :=
  ⟨watched_fail h, nofun⟩

end

theorem followed_new (directory : Path) (world : Host.World) :
    Followed (.new directory world) Audit.new :=
  ⟨⟨rfl, fun _ => rfl, nofun⟩,
    fun _ => ⟨nofun, ⟨rfl, rfl, rfl, rfl⟩, rfl, rfl⟩⟩

omit [Host] in
theorem tracks_configure {engine : DownloadEngine} (h : Tracks engine a)
    (hs : config.version < 2 → engine.archive = none) (hc : engine.configure config = .ok engine') :
    Tracks engine' a := by
  rw [DownloadEngine.configure] at hc
  cases hv : config.validate
  case error => simp [hv, Except.map] at hc
  rw [hv] at hc
  cases hc
  refine ⟨fun ha => ?_, h.phase⟩
  by_contra hn
  have hz : engine.archive = none := hs (by simpa using hn)
  simp [hz] at ha

variable [LocalPaths]

omit [Library] in
theorem applyDirectory_update {sink : Sink}
    (h : sink.applyDirectory name pathId components = .ok (sink', update)) :
    ∃ progress, update = .progress progress := by
  simp only [Sink.applyDirectory, bind, Except.bind] at h
  repeat' split at h
  all_goals cases h
  exact ⟨_, rfl⟩

omit [Library] in
theorem applyFileSize_update {sink : Sink} (h : sink.applyFileSize name size = .ok (sink', update)) :
    ∃ progress, update = .progress progress := by
  simp only [Sink.applyFileSize, bind, Except.bind] at h
  repeat' split at h
  all_goals cases h
  exact ⟨_, rfl⟩

omit [Library] in
theorem apply_completed {sink : Sink} (h : sink.apply event = .ok (sink', update)) :
    (∃ names, update = .completed names) ↔ event.isCompleted := by
  cases event
  case directory =>
    obtain ⟨_, rfl⟩ := applyDirectory_update h
    simp [DownloadEvent.isCompleted]
  case fileSize =>
    obtain ⟨_, rfl⟩ := applyFileSize_update h
    simp [DownloadEvent.isCompleted]
  all_goals simp only [Sink.apply, Sink.applyData, Sink.applyFinished] at h
  all_goals repeat' split at h
  all_goals cases h
  all_goals simp [DownloadEvent.isCompleted]

theorem watched_deliver (h : Watched worker a) (hc : a.complete = false)
    (hb : a.emit event = some b) :
    Watched ((worker.observe (.act (.emit event))).deliver event) b := by
  have hs : a.step (.act (.emit event)) = some b := by
    rw [Audit.step, if_neg (by simp [hc])]
    exact hb
  have ht : Audit.new.run (worker.observe (.act (.emit event))).trace = some b :=
    run_observe h.trace hs
  have hk := emit_complete hb
  rw [deliver]
  split
  case h_1 => exact watched_fail ht
  case h_2 sink names he =>
    rw [(apply_completed he).mp ⟨names, rfl⟩, Bool.or_true] at hk
    exact ⟨ht, fun h => (by cases h), fun _ _ => hk⟩
  case h_3 sink update hn he =>
    have hm : event.isCompleted = false := by
      by_contra hm
      obtain ⟨names, rfl⟩ := (apply_completed he).mpr (by simpa using hm)
      exact hn names rfl
    rw [hm, Bool.or_false] at hk
    exact ⟨ht, hk ▸ h.running, hk ▸ h.completed⟩

theorem watched_perform (h : Watched worker a) (hacts : a.Accepts acts post) :
    ∃ b, Watched (worker.perform acts) b ∧ ((worker.perform acts).isFailed = false → post b) := by
  induction acts generalizing worker a
  case nil =>
    obtain ⟨b, hb, hp⟩ := hacts
    cases hb
    exact ⟨a, h, fun _ => hp⟩
  case cons act acts ih =>
    obtain ⟨hc, b, hb, hrest⟩ := accepts_cons_iff.mp hacts
    cases act
    case consume bytes =>
      have hs : a.step (.act (.consume bytes)) = some b := by
        rw [Audit.step, if_neg (by simp [hc])]
        exact hb
      have hk : b.complete = a.complete := by
        simp only [Audit.act, Audit.consume] at hb
        repeat' split at hb
        all_goals cases hb
        rfl
      exact ih ⟨run_observe h.trace hs, hk ▸ h.running, hk ▸ h.completed⟩ hrest
    case emit event =>
      rw [perform]
      split
      case isTrue => exact ⟨a, watched_fail h.trace, fun hn => (by cases hn)⟩
      dsimp only
      split
      case isTrue hf => exact ⟨b, watched_deliver h hc hb, fun hn => absurd hf (by simp [hn])⟩
      case isFalse => exact ih (watched_deliver h hc hb) hrest

omit [LocalPaths] in
theorem followed_settle (h : Watched worker a)
    (ht : worker.isFailed = false → ∀ engine responses, result = .ok (engine, responses) → Tracks engine a) :
    Followed (worker.settle result) a := by
  rw [settle.eq_def]
  split
  case isTrue hf =>
    refine ⟨h, fun ho => ?_⟩
    rw [isFailed, ho] at hf
    cases hf
  case isFalse hf =>
    split
    case h_1 => exact followed_fail h.trace
    case h_2 engine responses =>
      exact ⟨{ h with }, fun _ => ht (by simpa using hf) engine responses rfl⟩

theorem followed_transfer (ho : worker.outcome = none) (h : Followed worker a) :
    ∃ b, Followed (worker.transfer frame) b := by
  have hc : a.complete = false := h.watched.running ho
  have hs : a.step (.frame frame) = some (a.see frame) := by
    rw [Audit.step, if_neg (by simp [hc])]
  have hw : Watched (worker.observe (.frame frame)) (a.see frame) :=
    ⟨run_observe h.watched.trace hs, fun _ => hc, fun _ hn => absurd (ho.symm.trans hn) (by simp)⟩
  obtain ⟨b, hb, hp⟩ := watched_perform hw (accounted_observeFrame frame (h.tracks ho))
  exact ⟨b, followed_settle hb hp⟩

-- While an archive is received, the peer does not change to a protocol that has no archives.
def Steady (worker : Worker) : List Frame → Prop
  | [] => True
  | frame :: frames =>
    (worker.outcome = none → ∀ config, parseConfigFrame frame = some config →
      config.version < 2 → worker.engine.archive = none) ∧
    (worker.step frame).Steady frames

theorem followed_step (h : Followed worker a)
    (hs : worker.outcome = none → ∀ config, parseConfigFrame frame = some config →
      config.version < 2 → worker.engine.archive = none) :
    ∃ b, Followed (worker.step frame) b := by
  rw [step]
  split
  case isTrue => exact ⟨a, h⟩
  case isFalse ho =>
    have ho : worker.outcome = none := by simpa using ho
    rw [processFrame]
    split
    case h_1 config hf =>
      split
      case h_1 => exact ⟨a, followed_fail h.watched.trace⟩
      case h_2 engine hc =>
        exact ⟨a, { h.watched with },
          fun _ => tracks_configure (h.tracks ho) (hs ho config hf) hc⟩
    case h_2 =>
      split
      case isTrue => exact ⟨a, followed_fail h.watched.trace⟩
      split
      case isTrue => exact followed_transfer ho h
      case isFalse => exact ⟨a, h⟩

theorem followed_run (h : Followed worker a) (hs : worker.Steady frames) :
    ∃ b, Followed (worker.run frames) b := by
  induction frames generalizing worker a
  case nil => exact ⟨a, h⟩
  case cons frame frames ih =>
    obtain ⟨b, hb⟩ := followed_step h hs.1
    exact ih hb hs.2

end Worker

-- The auditor accepts all that is done in the course of a steady download, and a download that says
-- that it is complete is complete.
theorem download_reports_intact_data [Library] [Host] [LocalPaths] (directory : Path)
    (world : Host.World) (frames : List Frame) (h : (Worker.new directory world).Steady frames) :
    ∃ audit, Audit.new.run ((Worker.new directory world).run frames).trace = some audit ∧
      ∀ names, ((Worker.new directory world).run frames).outcome = some (.completed names) →
        audit.complete := by
  obtain ⟨b, hb⟩ := Worker.followed_run (Worker.followed_new directory world) h
  exact ⟨b, hb.watched.trace, hb.watched.completed⟩

namespace Sample

local instance direct : Library := plainLibrary

local instance disk : Host := memoryHost

local instance slashes : LocalPaths := Family.paths .unix

def fileFrames : List Frame :=
  [⟨"NUM", .integer 1⟩, ⟨"NAME", .encodedBytes (Library.toUtf8 "f")⟩, ⟨"SIZE", .integer 2⟩,
   ⟨"DATA", .encodedBytes [1]⟩, ⟨"DATA", .encodedBytes [2]⟩, ⟨"MD5", .encodedBytes [1, 2, 0]⟩]

theorem download_reports_intact_data_file :
    ∃ audit, Audit.new.run ((Worker.new ["downloads"] []).run fileFrames).trace = some audit ∧
      audit.complete := by
  obtain ⟨audit, ht, hc⟩ := download_reports_intact_data ["downloads"] [] fileFrames (by
    simp [Worker.Steady, fileFrames, parseConfigFrame])
  exact ⟨audit, ht, hc ["f"] rfl⟩

-- The archive breaks off in the middle of a file, and then the peer changes to a protocol without
-- archives. The digest of what was sent is right, and the download is complete.
def truncatedFrames : List Frame :=
  [⟨"CFG", .encodedBytes [4]⟩, ⟨"NUM", .integer 1⟩, ⟨"NAME", .encodedBytes (Library.toUtf8 "d")⟩,
   ⟨"SIZE", .integer 6⟩, ⟨"DATA", .encodedBytes (Library.toUtf8 "d/f\n12")⟩,
   ⟨"CFG", .encodedBytes [1]⟩, ⟨"DATA", .encodedBytes []⟩,
   ⟨"MD5", .encodedBytes (Library.toUtf8 "d/f\n12" ++ [0])⟩]

theorem download_reports_truncated_archive :
    ((Worker.new ["downloads"] []).run truncatedFrames).outcome = some (.completed ["d"]) ∧
    Audit.new.run ((Worker.new ["downloads"] []).run truncatedFrames).trace = none := by
  constructor
  case left | right => rfl

end Sample

end NyaTerm.Trzsz
